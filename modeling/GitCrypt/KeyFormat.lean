import GitCrypt.Key

/-! The grammar of key files and what `Key_file::load` makes of every byte string. A
`KeyText` is a parse: the fields of the header and of each entry record. -/
namespace GitCrypt
open Iostream Tlv

/-- An unknown field that may be skipped. -/
def SkippedField (f : Field) : Prop := f.id ≠ 0 ∧ f.id.toNat % 2 = 0 ∧ f.payload.length ≤ 2 ^ 20

def HeaderField (f : Field) : Prop :=
  (f.id = headerFieldKeyName ∧ 1 ≤ f.payload.length ∧ f.payload.length ≤ 128 ∧
    ValidKeyName (cStr f.payload)) ∨ SkippedField f

def EntryField (f : Field) : Prop :=
  (f.id = keyFieldVersion ∧ f.payload.length = 4) ∨
  (f.id = keyFieldAesKey ∧ f.payload.length = 32) ∨
  (f.id = keyFieldHmacKey ∧ f.payload.length = 64) ∨ SkippedField f

def fieldBytes (f : Field) : Bytes :=
  storeBe32 f.id ++ storeBe32 (UInt32.ofNat f.payload.length) ++ f.payload

/-- Fields followed by the closing id. -/
def recordBytes (fs : List Field) : Bytes := fs.flatMap fieldBytes ++ storeBe32 0

/-- The payload of the last field with an id. -/
def lastPayload (fieldId : UInt32) (fs : List Field) : Option Bytes :=
  ((fs.filter (·.id = fieldId)).getLast?).map (·.payload)

/-- The entry a record stands for: the last field of each kind wins, and what no field
sets is as default-constructed. -/
def entryOf (fs : List Field) : Entry where
  version := ((lastPayload keyFieldVersion fs).map loadBe32).getD 0
  aesKey := ((lastPayload keyFieldAesKey fs).map Buffer.ofBytes).getD Buffer.zero
  hmacKey := ((lastPayload keyFieldHmacKey fs).map Buffer.ofBytes).getD Buffer.zero

structure KeyText where
  header : List Field
  records : List (List Field)

namespace KeyText

structure WellFormed (t : KeyText) : Prop where
  header : ∀ f ∈ t.header, HeaderField f
  records : ∀ r ∈ t.records, ∀ f ∈ r, EntryField f

def encode (t : KeyText) : Bytes :=
  KeyFile.preambleMagic ++ storeBe32 formatVersion ++ recordBytes t.header ++
    t.records.flatMap recordBytes

def keyName (t : KeyText) : Bytes := (lastPayload headerFieldKeyName t.header).getD []

/-- The entry of the last record with a version. -/
def get (t : KeyText) (version : UInt32) : Option Entry :=
  ((t.records.map entryOf).filter (·.version = version)).getLast?

/-- A key file is the last-wins reading of a parse. -/
def Reads (t : KeyText) (kf : KeyFile) : Prop :=
  kf.keyName = t.keyName ∧ ∀ version, kf.get version = t.get version

end KeyText

/-- Bytes whose first departure from the grammar is another format version, or an unknown
odd field id with a complete length word. -/
def IncompatibleText (b : Bytes) : Prop :=
  (∃ version tail, version ≠ formatVersion ∧
    b = KeyFile.preambleMagic ++ storeBe32 version ++ tail) ∨
  (∃ (fs : List Field) (fieldId len : UInt32) (tail : Bytes), (∀ f ∈ fs, HeaderField f) ∧ fieldId.toNat % 2 = 1 ∧
    fieldId ≠ headerFieldKeyName ∧
    b = KeyFile.preambleMagic ++ storeBe32 formatVersion ++ fs.flatMap fieldBytes ++
      storeBe32 fieldId ++ storeBe32 len ++ tail) ∨
  (∃ (t : KeyText) (fs : List Field) (fieldId len : UInt32) (tail : Bytes), t.WellFormed ∧ (∀ f ∈ fs, EntryField f) ∧
    fieldId.toNat % 2 = 1 ∧ fieldId ≠ keyFieldVersion ∧ fieldId ≠ keyFieldAesKey ∧
    fieldId ≠ keyFieldHmacKey ∧
    b = t.encode ++ fs.flatMap fieldBytes ++ storeBe32 fieldId ++ storeBe32 len ++ tail)

theorem fieldBytes_append_inj {f g : Field} {a b : Bytes} (hf : f.payload.length < 2 ^ 32)
    (hg : g.payload.length < 2 ^ 32) (h : fieldBytes f ++ a = fieldBytes g ++ b) :
    f = g ∧ a = b := by
  obtain ⟨fid, fp⟩ := f
  obtain ⟨gid, gp⟩ := g
  simp only [fieldBytes, List.append_assoc] at h hf hg
  obtain ⟨hid, h⟩ := List.append_inj h rfl
  obtain ⟨hlen, h⟩ := List.append_inj h rfl
  have hl := congrArg UInt32.toNat (storeBe32_injective hlen)
  rw [UInt32.toNat_ofNat_of_lt' hf, UInt32.toNat_ofNat_of_lt' hg] at hl
  obtain ⟨hp, h⟩ := List.append_inj h hl
  exact ⟨by rw [storeBe32_injective hid, hp], h⟩

/-- A field that cannot be taken for the end of a record, with a length that fits its word. -/
def Delimited (f : Field) : Prop := f.id ≠ 0 ∧ f.payload.length < 2 ^ 32

theorem fieldBytes_ne_end {f : Field} (h : f.id ≠ 0) {a b : Bytes} :
    fieldBytes f ++ a ≠ storeBe32 0 ++ b := by
  intro he
  rw [fieldBytes, List.append_assoc, List.append_assoc] at he
  exact h (storeBe32_injective (List.append_inj he rfl).1)

theorem recordBytes_append_inj {fs gs : List Field} {a b : Bytes}
    (hf : ∀ f ∈ fs, Delimited f) (hg : ∀ g ∈ gs, Delimited g)
    (h : recordBytes fs ++ a = recordBytes gs ++ b) : fs = gs ∧ a = b := by
  induction fs generalizing gs with
  | nil =>
    cases gs with
    | nil => exact ⟨rfl, List.append_cancel_left h⟩
    | cons g gs =>
      simp only [recordBytes, List.flatMap_nil, List.nil_append, List.flatMap_cons,
        List.append_assoc] at h
      exact absurd h.symm (fieldBytes_ne_end (hg g (by simp)).1)
  | cons f fs ih =>
    obtain ⟨hf0, hfs⟩ := List.forall_mem_cons.mp hf
    cases gs with
    | nil =>
      simp only [recordBytes, List.flatMap_nil, List.nil_append, List.flatMap_cons,
        List.append_assoc] at h
      exact absurd h (fieldBytes_ne_end hf0.1)
    | cons g gs =>
      obtain ⟨hg0, hgs⟩ := List.forall_mem_cons.mp hg
      simp only [recordBytes, List.flatMap_cons, List.append_assoc] at h
      obtain ⟨rfl, htail⟩ := fieldBytes_append_inj hf0.2 hg0.2 h
      obtain ⟨rfl, rfl⟩ := ih hfs hgs (by simpa only [recordBytes, List.append_assoc] using htail)
      exact ⟨rfl, rfl⟩

private theorem delimited_of_skipped {f : Field} (h : SkippedField f) : Delimited f :=
  ⟨h.1, lt_of_le_of_lt h.2.2 (by decide)⟩

theorem delimited_of_header {f : Field} (h : HeaderField f) : Delimited f := by
  rcases h with ⟨hid, -, hl, -⟩ | h
  · exact ⟨by rw [hid]; decide, by omega⟩
  · exact delimited_of_skipped h

theorem delimited_of_entry {f : Field} (h : EntryField f) : Delimited f := by
  rcases h with ⟨hid, hl⟩ | ⟨hid, hl⟩ | ⟨hid, hl⟩ | h
  · exact ⟨by rw [hid]; decide, by omega⟩
  · exact ⟨by rw [hid]; decide, by omega⟩
  · exact ⟨by rw [hid]; decide, by omega⟩
  · exact delimited_of_skipped h

theorem recordBytes_ne_nil (r : List Field) : recordBytes r ≠ [] := by
  simp [recordBytes, storeBe32]

private theorem records_inj {rs ss : List (List Field)} (hr : ∀ r ∈ rs, ∀ f ∈ r, Delimited f)
    (hs : ∀ r ∈ ss, ∀ f ∈ r, Delimited f) (h : rs.flatMap recordBytes = ss.flatMap recordBytes) :
    rs = ss := by
  induction rs generalizing ss with
  | nil =>
    cases ss with
    | nil => rfl
    | cons s ss => simp [recordBytes_ne_nil] at h
  | cons r rs ih =>
    obtain ⟨hr0, hrs⟩ := List.forall_mem_cons.mp hr
    cases ss with
    | nil => simp [recordBytes_ne_nil] at h
    | cons s ss =>
      obtain ⟨hs0, hss⟩ := List.forall_mem_cons.mp hs
      rw [List.flatMap_cons, List.flatMap_cons] at h
      obtain ⟨rfl, htail⟩ := recordBytes_append_inj hr0 hs0 h
      rw [ih hrs hss htail]

/-- A byte string has at most one parse. -/
theorem KeyText.encode_inj {t t' : KeyText} (ht : t.WellFormed) (ht' : t'.WellFormed)
    (h : t.encode = t'.encode) : t = t' := by
  simp only [encode, List.append_assoc] at h
  have h := List.append_cancel_left (List.append_cancel_left h)
  obtain ⟨hh, h⟩ := recordBytes_append_inj (fun f hf => delimited_of_header (ht.header f hf))
    (fun f hf => delimited_of_header (ht'.header f hf)) h
  have hr := records_inj (fun r hr f hf => delimited_of_entry (ht.records r hr f hf))
    (fun r hr f hf => delimited_of_entry (ht'.records r hr f hf)) h
  cases t; cases t'
  simp_all

namespace KeyFile

/-- `load` into a fresh key file from a byte string. -/
def loadBytes (b : Bytes) : Except KeyError KeyFile :=
  match empty.load (IStream.ofBytes b) with
  | (kf, .ok _) => .ok kf
  | (_, .error e) => .error e

end KeyFile

private theorem and_one_eq_one {fieldId : UInt32} : fieldId &&& 1 = 1 ↔ fieldId.toNat % 2 = 1 := by
  rw [← UInt32.toNat_inj]
  simp [Nat.and_one_is_mod]

private theorem len_le {n : Nat} (hn : n < 2 ^ 32) (m : UInt32) :
    UInt32.ofNat n ≤ m ↔ n ≤ m.toNat := by
  rw [UInt32.le_iff_toNat_le, UInt32.toNat_ofNat_of_lt' hn]

private theorem len_eq {n : Nat} (hn : n < 2 ^ 32) (m : UInt32) :
    UInt32.ofNat n = m ↔ n = m.toNat := by
  rw [← UInt32.toNat_inj, UInt32.toNat_ofNat_of_lt' hn]

private theorem skipped_iff {f : Field} (hl : f.payload.length < 2 ^ 32) :
    SkippedField f ↔ f.id ≠ 0 ∧ f.id &&& 1 ≠ 1 ∧ f.len ≤ maxFieldLen := by
  rw [Field.len, len_le hl, Ne, Ne, and_one_eq_one, SkippedField,
    show maxFieldLen.toNat = 2 ^ 20 from rfl, Nat.mod_two_not_eq_one]

private theorem ne_of_even {f : Field} (h : SkippedField f) {k : UInt32} (hk : k.toNat % 2 = 1) :
    f.id ≠ k := by
  rintro rfl
  exact absurd h.2.1 (by omega)

/-- Where a reader does not know an id, it takes the field exactly when it may be skipped. -/
private theorem accepts_unknown {σ : Type} {F : Format σ} (hm : F.maxSkip = maxFieldLen) {f : Field}
    (h : F.known f.id = none) : F.Accepts f ↔ SkippedField f := by
  rw [F.accepts_of_unknown h, hm]
  constructor
  · rintro ⟨h0, hl, hs⟩
    exact (skipped_iff hl).mpr ⟨h0, hs⟩
  · intro hs
    have hl : f.payload.length < 2 ^ 32 := lt_of_le_of_lt hs.2.2 (by decide)
    obtain ⟨h0, h⟩ := (skipped_iff hl).mp hs
    exact ⟨h0, hl, h⟩

theorem headerFormat_accepts {f : Field} : KeyFile.headerFormat.Accepts f ↔ HeaderField f := by
  by_cases hid : f.id = headerFieldKeyName
  · have hk : KeyFile.headerFormat.known f.id = some KeyFile.keyNameField := if_pos hid
    rw [Format.accepts_of_known _ hk]
    simp only [KeyFile.keyNameField, decide_eq_true_eq]
    constructor
    · rintro ⟨-, hl, hle, hv⟩
      refine Or.inl ⟨hid, ?_, (len_le hl _).mp hle, hv⟩
      rw [Nat.one_le_iff_ne_zero, Ne, List.length_eq_zero_iff]
      intro hnil
      exact (validKeyName_iff.mp hv).1 (by rw [hnil]; rfl)
    · rintro (⟨-, -, hle, hv⟩ | hs)
      · have hl : f.payload.length < 2 ^ 32 := lt_of_le_of_lt hle (by decide)
        exact ⟨by rw [hid]; decide, hl, (len_le hl _).mpr hle, hv⟩
      · exact absurd hid (ne_of_even hs (by decide))
  · have hk : KeyFile.headerFormat.known f.id = none := if_neg hid
    rw [accepts_unknown rfl hk, HeaderField]
    exact ⟨Or.inr, fun h => h.resolve_left fun h => hid h.1⟩

private theorem accepts_fixed {f : Field} {n : UInt32} {set : Entry → Bytes → Entry}
    (hk : Entry.format.known f.id = some (Entry.fixedField n set)) (h0 : f.id ≠ 0) :
    Entry.format.Accepts f ↔ f.payload.length = n.toNat := by
  rw [Format.accepts_of_known _ hk]
  simp only [Entry.fixedField, decide_eq_true_eq, and_true]
  constructor
  · rintro ⟨-, hlt, he⟩
    exact (len_eq hlt n).mp he
  · intro he
    have hlt : f.payload.length < 2 ^ 32 := he ▸ n.toNat_lt
    exact ⟨h0, hlt, (len_eq hlt n).mpr he⟩

/-- What `Entry::load` knows of a field id. -/
theorem entryFormat_known (fieldId : UInt32) :
    (fieldId = keyFieldVersion ∧ Entry.format.known fieldId =
      some (Entry.fixedField 4 fun e bytes => { e with version := loadBe32 bytes })) ∨
    (fieldId = keyFieldAesKey ∧ Entry.format.known fieldId =
      some (Entry.fixedField 32 fun e bytes => { e with aesKey := e.aesKey.blit 0 bytes })) ∨
    (fieldId = keyFieldHmacKey ∧ Entry.format.known fieldId =
      some (Entry.fixedField 64 fun e bytes => { e with hmacKey := e.hmacKey.blit 0 bytes })) ∨
    (fieldId ≠ keyFieldVersion ∧ fieldId ≠ keyFieldAesKey ∧ fieldId ≠ keyFieldHmacKey ∧
      Entry.format.known fieldId = none) := by
  by_cases h1 : fieldId = keyFieldVersion
  · exact Or.inl ⟨h1, by rw [h1]; rfl⟩
  by_cases h2 : fieldId = keyFieldAesKey
  · exact Or.inr (Or.inl ⟨h2, by rw [h2]; rfl⟩)
  by_cases h3 : fieldId = keyFieldHmacKey
  · exact Or.inr (Or.inr (Or.inl ⟨h3, by rw [h3]; rfl⟩))
  · exact Or.inr (Or.inr (Or.inr ⟨h1, h2, h3, by simp [Entry.format, Entry.field, h1, h2, h3]⟩))

theorem entryFormat_accepts {f : Field} : Entry.format.Accepts f ↔ EntryField f := by
  have hodd : ∀ {k : UInt32}, k.toNat % 2 = 1 → f.id = k → ¬ SkippedField f :=
    fun hk hid hs => ne_of_even hs hk hid
  rcases entryFormat_known f.id with ⟨hid, hk⟩ | ⟨hid, hk⟩ | ⟨hid, hk⟩ | ⟨h1, h3, h5, hk⟩
  · rw [accepts_fixed hk (by rw [hid]; decide)]
    simp [EntryField, hid, hodd (by decide) hid]
  · rw [accepts_fixed hk (by rw [hid]; decide)]
    simp [EntryField, hid, hodd (by decide) hid]
  · rw [accepts_fixed hk (by rw [hid]; decide)]
    simp [EntryField, hid, hodd (by decide) hid]
  · rw [accepts_unknown rfl hk]
    simp [EntryField, h1, h3, h5]

private theorem recordBytes_eq_header (fs : List Field) :
    recordBytes fs = KeyFile.headerFormat.encode fs := rfl

private theorem recordBytes_eq_entry (fs : List Field) : recordBytes fs = Entry.format.encode fs := rfl

private theorem lastPayload_append (fieldId : UInt32) (fs : List Field) (f : Field) :
    lastPayload fieldId (fs ++ [f]) =
      if f.id = fieldId then some f.payload else lastPayload fieldId fs := by
  by_cases h : f.id = fieldId <;> simp [lastPayload, List.filter_append, h]

theorem lastPayload_mem {fieldId : UInt32} {fs : List Field} {payload : Bytes}
    (h : lastPayload fieldId fs = some payload) : ⟨fieldId, payload⟩ ∈ fs := by
  obtain ⟨f, hf, rfl⟩ := Option.map_eq_some_iff.mp h
  obtain ⟨hm, hid⟩ := List.mem_filter.mp (List.mem_of_getLast? hf)
  rw [← of_decide_eq_true hid]
  exact hm

private theorem header_applyAll (fs : List Field) (keyName : Bytes) :
    KeyFile.headerFormat.applyAll keyName fs = (lastPayload headerFieldKeyName fs).getD keyName := by
  induction fs using List.reverseRecOn with
  | nil => rfl
  | append_singleton fs f ih =>
    rw [Format.applyAll_append, ih, lastPayload_append, Format.applyAll_cons, Format.applyAll_nil]
    by_cases h : f.id = headerFieldKeyName
    · simp [Format.apply, KeyFile.headerFormat, KeyFile.headerField, KeyFile.keyNameField, h]
    · simp [Format.apply, KeyFile.headerFormat, KeyFile.headerField, h]

/-- Reading accepted fields into a fresh entry gives the entry the record stands for. -/
theorem entry_applyAll {fs : List Field} (h : ∀ f ∈ fs, EntryField f) :
    Entry.format.applyAll Entry.zero fs = entryOf fs := by
  induction fs using List.reverseRecOn with
  | nil => rfl
  | append_singleton fs f ih =>
    rw [Format.applyAll_append, ih fun f hf => h f (by simp [hf]), Format.applyAll_cons,
      Format.applyAll_nil]
    have hf := entryFormat_accepts.mpr (h f (by simp))
    rcases entryFormat_known f.id with ⟨hid, hk⟩ | ⟨hid, hk⟩ | ⟨hid, hk⟩ | ⟨h1, h3, h5, hk⟩
    · rw [Format.apply_of_known _ hk]
      simp [Entry.fixedField, entryOf, lastPayload_append, hid]
    · have hl := (accepts_fixed hk (by rw [hid]; decide)).mp hf
      rw [Format.apply_of_known _ hk]
      simp [Entry.fixedField, entryOf, lastPayload_append, hid, Buffer.blit_whole _ hl]
    · have hl := (accepts_fixed hk (by rw [hid]; decide)).mp hf
      rw [Format.apply_of_known _ hk]
      simp [Entry.fixedField, entryOf, lastPayload_append, hid, Buffer.blit_whole _ hl]
    · rw [Format.apply_of_unknown _ hk]
      simp [entryOf, lastPayload_append, h1, h3, h5]

namespace KeyFile

/-- Adding the entries of records one after another. -/
def addRecords (kf : KeyFile) (records : List (List Field)) : KeyFile :=
  records.foldl (fun kf r => kf.add (entryOf r)) kf

@[simp] theorem keyName_addRecords (kf : KeyFile) (records : List (List Field)) :
    (kf.addRecords records).keyName = kf.keyName := by
  induction records generalizing kf with
  | nil => rfl
  | cons r records ih => exact ih (kf.add (entryOf r))

/-- The last record of a version decides; without one the entry is as before. -/
private theorem get_addRecords (kf : KeyFile) (records : List (List Field)) (version : UInt32) :
    (kf.addRecords records).get version =
      (((records.map entryOf).filter (·.version = version)).getLast?).or (kf.get version) := by
  induction records using List.reverseRecOn with
  | nil => rfl
  | append_singleton records r ih =>
    rw [addRecords, List.foldl_append] at *
    rw [List.foldl_cons, List.foldl_nil, get_add, ih]
    by_cases h : (entryOf r).version = version <;> simp [List.filter_append, h]

theorem loadEntries_eq (kf : KeyFile) (input : IStream) :
    kf.loadEntries input =
      match input.peek.1 with
      | none => (kf, .ok input.peek.2)
      | some _ =>
        match Entry.zero.load input.peek.2 with
        | (_, .error e) => (kf, .error e)
        | (entry, .ok input) => (kf.add entry).loadEntries input := by
  rw [loadEntries]
  cases hp : input.peek.1 with
  | none => rfl
  | some b =>
    dsimp only
    split <;> rename_i h <;> rw [h]

/-- Well-formed records in front are read and their entries added. -/
theorem loadEntries_records {records : List (List Field)} (h : ∀ r ∈ records, ∀ f ∈ r, EntryField f)
    (kf : KeyFile) (tail : Bytes) (g : Nat) :
    ∃ g', kf.loadEntries ⟨records.flatMap recordBytes ++ tail, false, false, g⟩ =
      (kf.addRecords records).loadEntries ⟨tail, false, false, g'⟩ := by
  induction records generalizing kf g with
  | nil => exact ⟨g, rfl⟩
  | cons r records ih =>
    obtain ⟨hr, hrs⟩ := List.forall_mem_cons.mp h
    obtain ⟨g', hg'⟩ := ih hrs (kf.add (entryOf r)) 4
    refine ⟨g', ?_⟩
    rw [List.flatMap_cons, List.append_assoc, loadEntries_eq]
    have hne := recordBytes_ne_nil r
    have hread := Entry.format.readFields_encode (fun f hf => entryFormat_accepts.mpr (hr f hf))
      Entry.zero (records.flatMap recordBytes ++ tail) 0
    cases hb : recordBytes r with
    | nil => exact absurd hb hne
    | cons b bs =>
      simp only [IStream.peek, IStream.good, List.cons_append]
      rw [← recordBytes_eq_entry, hb, List.cons_append, entry_applyAll hr] at hread
      simp only [Bool.not_false, Bool.and_self, if_true, Entry.load, hread]
      exact hg'

/-- What each outcome of the entry loop says about the bytes it was given. -/
private theorem loadEntries_cases (kf : KeyFile) {input : IStream} (hg : input.good = true) :
    match kf.loadEntries input with
    | (kf', .ok _) => ∃ records : List (List Field), (∀ r ∈ records, ∀ f ∈ r, EntryField f) ∧
        input.rest = records.flatMap recordBytes ∧ kf' = kf.addRecords records
    | (_, .error .incompatible) => ∃ (records : List (List Field)) (tail : Bytes),
        (∀ r ∈ records, ∀ f ∈ r, EntryField f) ∧
        input.rest = records.flatMap recordBytes ++ tail ∧ Entry.format.UnknownOdd tail
    | (_, .error .malformed) => True := by
  induction hn : input.rest.length using Nat.strong_induction_on generalizing kf input with
  | _ n ih =>
    subst hn
    rw [loadEntries_eq]
    cases hp : input.peek.1 with
    | none => exact ⟨[], by simp, (IStream.peek_none_iff hg).mp hp, rfl⟩
    | some b =>
      have hne : input.rest ≠ [] := fun h => by
        rw [(IStream.peek_none_iff hg).mpr h] at hp
        cases hp
      rw [IStream.peek_of_cons hg hne]
      have hg' : ({ input with gcount := 0 } : IStream).good = true := hg
      have hc := Entry.format.readFields_cases Entry.zero hg'
      generalize hload : Entry.zero.load { input with gcount := 0 } = res
      rw [Entry.load] at hload
      rw [hload] at hc
      match res, hc with
      | (_, .error .malformed), _ => trivial
      | (_, .error .incompatible), hc => exact ⟨[], input.rest, by simp, by simp, hc⟩
      | (entry, .ok input'), ⟨fs, hfs, hr, he, hs⟩ =>
        have hfs' : ∀ f ∈ fs, EntryField f := fun f hf => entryFormat_accepts.mp (hfs f hf)
        have hlt : input'.rest.length < input.rest.length :=
          Entry.format.readFields_shorter (s := { input with gcount := 0 }) hload
        rw [he, entry_applyAll hfs']
        have hrest : input.rest = recordBytes fs ++ input'.rest := hr
        have hgood : input'.good = true := by rw [hs]; rfl
        have hrec := ih _ hlt (kf.add (entryOf fs)) hgood rfl
        dsimp only
        generalize (kf.add (entryOf fs)).loadEntries input' = out at hrec ⊢
        match out, hrec with
        | (kf', .ok _), ⟨records, hrecs, hr', hkf⟩ =>
          exact ⟨fs :: records, List.forall_mem_cons.mpr ⟨hfs', hrecs⟩, by rw [hrest, hr']; rfl, hkf⟩
        | (_, .error .incompatible), ⟨records, tail, hrecs, hr', hu⟩ =>
          exact ⟨fs :: records, tail, List.forall_mem_cons.mpr ⟨hfs', hrecs⟩,
            by rw [hrest, hr', List.flatMap_cons, List.append_assoc], hu⟩
        | (_, .error .malformed), _ => trivial

/-- An unknown odd field is met wherever it stands in an entry record. -/
private theorem loadEntries_unknownOdd {tail : Bytes} (h : Entry.format.UnknownOdd tail) (kf : KeyFile)
    (g : Nat) : (kf.loadEntries ⟨tail, false, false, g⟩).2 = .error .incompatible := by
  have hne : tail ≠ [] := by
    obtain ⟨fs, fieldId, len, rest, -, -, -, rfl⟩ := h
    simp [Entry.format, be32, storeBe32]
  have hu := Entry.format.readFields_unknownOdd h Entry.zero 0
  rw [loadEntries_eq]
  obtain ⟨b, bs, rfl⟩ := List.exists_cons_of_ne_nil hne
  simp only [IStream.peek, IStream.good, Bool.not_false, Bool.and_self, if_true, Entry.load]
  generalize Entry.format.readFields Entry.zero ⟨b :: bs, false, false, 0⟩ = res at hu
  obtain ⟨e, r⟩ := res
  simp only at hu
  subst hu
  rfl

/-- `load` into a fresh key file: the preamble, then the header and the entries. -/
private theorem load_ofBytes (b : Bytes) : empty.load (IStream.ofBytes b) =
    if b.length < 16 then (empty, .error .malformed)
    else if b.take 12 ≠ preambleMagic then (empty, .error .malformed)
    else if loadBe32 ((b.take 16).drop 12) ≠ formatVersion then (empty, .error .incompatible)
    else match empty.loadHeader ⟨b.drop 16, false, false, 16⟩ with
      | (kf, .error e) => (kf, .error e)
      | (kf, .ok input) => kf.loadEntries input := by
  have ht : (b.take 16).take 12 = b.take 12 := by simp [List.take_take]
  unfold load
  rw [IStream.read_of_good rfl, IStream.ofBytes_rest]
  by_cases hl : b.length < 16
  · simp [hl, show min 16 b.length ≠ 16 by omega]
  · have h16 : min 16 b.length = 16 := by omega
    rw [if_neg hl, decide_eq_false hl, h16, ← ht]
    rfl

private theorem take_preamble (version : UInt32) (tail : Bytes) :
    16 ≤ (preambleMagic ++ storeBe32 version ++ tail).length ∧
      (preambleMagic ++ storeBe32 version ++ tail).take 12 = preambleMagic ∧
      loadBe32 (((preambleMagic ++ storeBe32 version ++ tail).take 16).drop 12) = version ∧
      (preambleMagic ++ storeBe32 version ++ tail).drop 16 = tail := by
  have hm : preambleMagic.length = 12 := by decide
  have hl : (preambleMagic ++ storeBe32 version).length = 16 := by simp [hm]
  refine ⟨by simp [hm]; omega, ?_, ?_, List.drop_left' hl⟩
  · rw [List.append_assoc, List.take_left' hm]
  · rw [List.take_left' hl, List.drop_left' hm, loadBe32_storeBe32]

private theorem load_of_preamble (body : Bytes) :
    empty.load (IStream.ofBytes (preambleMagic ++ storeBe32 formatVersion ++ body)) =
      match empty.loadHeader ⟨body, false, false, 16⟩ with
      | (kf, .error e) => (kf, .error e)
      | (kf, .ok input) => kf.loadEntries input := by
  obtain ⟨hl, hm, hv, hd⟩ := take_preamble formatVersion body
  rw [load_ofBytes, if_neg (not_lt.mpr hl), if_neg (not_not.mpr hm), if_neg (not_not.mpr hv), hd]

end KeyFile

private theorem header_known_none {fieldId : UInt32} :
    KeyFile.headerFormat.known fieldId = none ↔ fieldId ≠ headerFieldKeyName := by
  by_cases h : fieldId = headerFieldKeyName <;> simp [KeyFile.headerFormat, KeyFile.headerField, h]

private theorem entry_known_none {fieldId : UInt32} :
    Entry.format.known fieldId = none ↔
      fieldId ≠ keyFieldVersion ∧ fieldId ≠ keyFieldAesKey ∧ fieldId ≠ keyFieldHmacKey := by
  rcases entryFormat_known fieldId with ⟨h, hk⟩ | ⟨h, hk⟩ | ⟨h, hk⟩ | ⟨h1, h3, h5, hk⟩
  · rw [hk]
    simp [h]
  · rw [hk]
    simp [h]
  · rw [hk]
    simp [h]
  · simp [hk, h1, h3, h5]

/-- The key file a well-formed text is read as. -/
def KeyText.toKeyFile (t : KeyText) : KeyFile :=
  (KeyFile.empty.setKeyName (some t.keyName)).addRecords t.records

theorem KeyText.reads_toKeyFile (t : KeyText) : t.Reads t.toKeyFile := by
  refine ⟨KeyFile.keyName_addRecords _ _, fun version => ?_⟩
  rw [toKeyFile, KeyFile.get_addRecords, get]
  exact Option.or_none

/-- A key file is determined by any parse it is the reading of. -/
theorem KeyText.Reads.eq {t : KeyText} {kf kf' : KeyFile} (h : t.Reads kf) (h' : t.Reads kf') :
    kf = kf' :=
  KeyFile.ext_get (fun version => (h.2 version).trans (h'.2 version).symm) (h.1.trans h'.1.symm)

namespace KeyFile

private theorem loadHeader_record {fs : List Field} (h : ∀ f ∈ fs, HeaderField f) (tail : Bytes)
    (g : Nat) : empty.loadHeader ⟨recordBytes fs ++ tail, false, false, g⟩ =
      (empty.setKeyName (some ((lastPayload headerFieldKeyName fs).getD [])),
        .ok ⟨tail, false, false, 4⟩) := by
  have hread := headerFormat.readFields_encode (fun f hf => headerFormat_accepts.mpr (h f hf))
    empty.keyName tail g
  rw [loadHeader, recordBytes_eq_header, hread, header_applyAll]
  rfl

/-- Every text of the grammar is read, as its last-wins reading. -/
theorem loadBytes_encode {t : KeyText} (h : t.WellFormed) : loadBytes t.encode = .ok t.toKeyFile := by
  obtain ⟨g', hg'⟩ := loadEntries_records h.records (empty.setKeyName (some t.keyName)) [] 4
  have hend : (t.toKeyFile.loadEntries ⟨[], false, false, g'⟩) =
      (t.toKeyFile, .ok ⟨[], true, false, 0⟩) := by
    rw [loadEntries_eq]
    rfl
  rw [List.append_nil] at hg'
  rw [loadBytes, KeyText.encode, List.append_assoc, load_of_preamble, loadHeader_record h.header]
  dsimp only
  rw [← KeyText.keyName, hg', ← KeyText.toKeyFile, hend]

private theorem loadBytes_version {version : UInt32} (h : version ≠ formatVersion) (tail : Bytes) :
    loadBytes (preambleMagic ++ storeBe32 version ++ tail) = .error .incompatible := by
  obtain ⟨hl, hm, hv, -⟩ := take_preamble version tail
  rw [loadBytes, load_ofBytes, if_neg (not_lt.mpr hl), if_neg (not_not.mpr hm), if_pos (by rwa [hv])]

private theorem loadBytes_header {body : Bytes} (h : headerFormat.UnknownOdd body) :
    loadBytes (preambleMagic ++ storeBe32 formatVersion ++ body) = .error .incompatible := by
  have hu := headerFormat.readFields_unknownOdd h empty.keyName 16
  rw [loadBytes, load_of_preamble, loadHeader]
  generalize headerFormat.readFields empty.keyName ⟨body, false, false, 16⟩ = res at hu
  obtain ⟨name, r⟩ := res
  simp only at hu
  subst hu
  rfl

private theorem loadBytes_entries {t : KeyText} (ht : t.WellFormed) {tail : Bytes}
    (h : Entry.format.UnknownOdd tail) : loadBytes (t.encode ++ tail) = .error .incompatible := by
  obtain ⟨g', hg'⟩ := loadEntries_records ht.records (empty.setKeyName (some t.keyName)) tail 4
  have hu := loadEntries_unknownOdd h t.toKeyFile g'
  rw [loadBytes, KeyText.encode, List.append_assoc, List.append_assoc, load_of_preamble,
    loadHeader_record ht.header]
  dsimp only
  rw [← KeyText.keyName, hg', ← KeyText.toKeyFile]
  generalize t.toKeyFile.loadEntries ⟨tail, false, false, g'⟩ = res at hu
  obtain ⟨kf, r⟩ := res
  simp only at hu
  subst hu
  rfl

theorem loadBytes_incompatible {b : Bytes} (h : IncompatibleText b) :
    loadBytes b = .error .incompatible := by
  rcases h with ⟨version, tail, hv, rfl⟩ | ⟨fs, fieldId, len, tail, hfs, ho, hk, rfl⟩ |
    ⟨t, fs, fieldId, len, tail, ht, hfs, ho, h1, h3, h5, rfl⟩
  · exact loadBytes_version hv tail
  · have hu : headerFormat.UnknownOdd
        (fs.flatMap fieldBytes ++ (storeBe32 fieldId ++ (storeBe32 len ++ tail))) :=
      ⟨fs, fieldId, len, tail, fun f hf => headerFormat_accepts.mpr (hfs f hf),
        header_known_none.mpr hk, and_one_eq_one.mpr ho, rfl⟩
    simpa only [List.append_assoc] using loadBytes_header hu
  · have hu : Entry.format.UnknownOdd
        (fs.flatMap fieldBytes ++ (storeBe32 fieldId ++ (storeBe32 len ++ tail))) :=
      ⟨fs, fieldId, len, tail, fun f hf => entryFormat_accepts.mpr (hfs f hf),
        entry_known_none.mpr ⟨h1, h3, h5⟩, and_one_eq_one.mpr ho, rfl⟩
    simpa only [List.append_assoc] using loadBytes_entries ht hu

/-- What each outcome says about the bytes after the preamble. -/
private theorem loadBytes_body_cases (body : Bytes) :
    match loadBytes (preambleMagic ++ storeBe32 formatVersion ++ body) with
    | .ok kf => ∃ t : KeyText, t.WellFormed ∧
        preambleMagic ++ storeBe32 formatVersion ++ body = t.encode ∧ kf = t.toKeyFile
    | .error .incompatible => IncompatibleText (preambleMagic ++ storeBe32 formatVersion ++ body)
    | .error .malformed => True := by
  have hg : (⟨body, false, false, 16⟩ : IStream).good = true := rfl
  have hc := headerFormat.readFields_cases empty.keyName hg
  rw [loadBytes, load_of_preamble, loadHeader]
  generalize headerFormat.readFields empty.keyName _ = res at hc ⊢
  match res, hc with
  | (_, .error .malformed), _ => trivial
  | (_, .error .incompatible), ⟨fs, fieldId, len, tail, hfs, hk, ho, hr⟩ =>
    refine Or.inr (Or.inl ⟨fs, fieldId, len, tail, fun f hf => headerFormat_accepts.mp (hfs f hf),
      and_one_eq_one.mp ho, header_known_none.mp hk, ?_⟩)
    rw [show body = _ from hr]
    simp only [List.append_assoc]
    rfl
  | (name, .ok input), ⟨fs, hfs, hr, hname, hin⟩ =>
    have hfs' : ∀ f ∈ fs, HeaderField f := fun f hf => headerFormat_accepts.mp (hfs f hf)
    have hrest : body = recordBytes fs ++ input.rest := hr
    have hkf : ({ empty with keyName := name } : KeyFile) =
        empty.setKeyName (some ((lastPayload headerFieldKeyName fs).getD [])) := by
      rw [hname, header_applyAll]
      rfl
    dsimp only
    rw [hkf]
    have hgood : input.good = true := by rw [hin]; rfl
    have hrec := loadEntries_cases
      (empty.setKeyName (some ((lastPayload headerFieldKeyName fs).getD []))) hgood
    generalize KeyFile.loadEntries _ input = out at hrec ⊢
    match out, hrec with
    | (kf, .ok _), ⟨records, hrecs, hr', he⟩ =>
      exact ⟨⟨fs, records⟩, ⟨hfs', hrecs⟩,
        by rw [hrest, hr', KeyText.encode]; simp only [List.append_assoc], he⟩
    | (_, .error .incompatible), ⟨records, tail, hrecs, hr', hu⟩ =>
      obtain ⟨gs, fieldId, len, rest, hgs, hk, ho, rfl⟩ := hu
      obtain ⟨h1, h3, h5⟩ := entry_known_none.mp hk
      refine Or.inr (Or.inr ⟨⟨fs, records⟩, gs, fieldId, len, rest, ⟨hfs', hrecs⟩,
        fun f hf => entryFormat_accepts.mp (hgs f hf), and_one_eq_one.mp ho, h1, h3, h5, ?_⟩)
      rw [hrest, hr', KeyText.encode]
      simp only [List.append_assoc]
      rfl
    | (_, .error .malformed), _ => trivial

/-- What each outcome of `load` says about the input. -/
theorem loadBytes_cases (b : Bytes) :
    match loadBytes b with
    | .ok kf => ∃ t : KeyText, t.WellFormed ∧ b = t.encode ∧ kf = t.toKeyFile
    | .error .incompatible => IncompatibleText b
    | .error .malformed => True := by
  by_cases hl : b.length < 16
  · rw [loadBytes, load_ofBytes, if_pos hl]
    trivial
  by_cases hmagic : b.take 12 ≠ preambleMagic
  · rw [loadBytes, load_ofBytes, if_neg hl, if_pos hmagic]
    trivial
  have h4 : ((b.take 16).drop 12).length = 4 := by simp; omega
  have hsplit : b = preambleMagic ++ (b.take 16).drop 12 ++ b.drop 16 := by
    have ht : (b.take 16).take 12 = preambleMagic := by simpa [List.take_take] using hmagic
    rw [← ht, List.take_append_drop, List.take_append_drop]
  by_cases hver : loadBe32 ((b.take 16).drop 12) ≠ formatVersion
  · rw [loadBytes, load_ofBytes, if_neg hl, if_neg hmagic, if_pos hver]
    exact Or.inl ⟨_, b.drop 16, hver, by rwa [storeBe32_loadBe32 h4]⟩
  · have hb : b = preambleMagic ++ storeBe32 formatVersion ++ b.drop 16 := by
      rwa [← not_not.mp hver, storeBe32_loadBe32 h4]
    rw [hb]
    exact loadBytes_body_cases _

/-- `load` accepts exactly the grammar, with its last-wins reading, and its two exceptions
divide the rest by what the first departure from the grammar is. -/
theorem load_decides_grammar (b : Bytes) :
    (∀ kf, loadBytes b = .ok kf ↔ ∃ t : KeyText, t.WellFormed ∧ b = t.encode ∧ t.Reads kf) ∧
    (loadBytes b = .error .incompatible ↔ IncompatibleText b) ∧
    (loadBytes b = .error .malformed ↔
      ¬ (∃ t : KeyText, t.WellFormed ∧ b = t.encode) ∧ ¬ IncompatibleText b) := by
  have hc := loadBytes_cases b
  refine ⟨fun kf => ⟨fun h => ?_, ?_⟩, ⟨fun h => ?_, loadBytes_incompatible⟩, fun h => ⟨?_, ?_⟩, ?_⟩
  · rw [h] at hc
    obtain ⟨t, ht, he, rfl⟩ := hc
    exact ⟨t, ht, he, t.reads_toKeyFile⟩
  · rintro ⟨t, ht, rfl, hr⟩
    rw [loadBytes_encode ht, t.reads_toKeyFile.eq hr]
  · rwa [h] at hc
  · rintro ⟨t, ht, rfl⟩
    rw [loadBytes_encode ht] at h
    cases h
  · intro hi
    rw [loadBytes_incompatible hi] at h
    cases h
  · rintro ⟨hg, hi⟩
    cases hl : loadBytes b with
    | ok kf =>
      rw [hl] at hc
      obtain ⟨t, ht, he, -⟩ := hc
      exact absurd ⟨t, ht, he⟩ hg
    | error e =>
      cases e with
      | malformed => rfl
      | incompatible =>
        rw [hl] at hc
        exact absurd hc hi

end KeyFile
end GitCrypt
