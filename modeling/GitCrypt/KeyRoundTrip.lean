import Mathlib.Data.List.TakeWhile
import GitCrypt.KeyFormat

/-! What `Key_file::store` writes is a text of the grammar, and `load` reads it back as the
key file that was stored. -/
namespace GitCrypt
open Iostream Tlv

/-- The fields `Entry::store` writes. -/
def Entry.fields (e : Entry) : List Field :=
  [⟨keyFieldVersion, storeBe32 e.version⟩, ⟨keyFieldAesKey, e.aesKey.toBytes⟩,
    ⟨keyFieldHmacKey, e.hmacKey.toBytes⟩]

theorem Entry.store_eq (e : Entry) : e.store = recordBytes e.fields := by
  simp [store, recordBytes, fields, fieldBytes]
  rfl

theorem Entry.entryField_fields (e : Entry) : ∀ f ∈ e.fields, EntryField f := by
  simp [fields, EntryField]

private theorem entryOf_fields (e : Entry) : entryOf e.fields = e := by
  simp [entryOf, Entry.fields, lastPayload, loadBe32_storeBe32]

namespace KeyFile

/-- The parse of what `store` writes. -/
def text (kf : KeyFile) : KeyText where
  header := if kf.keyName = [] then [] else [⟨headerFieldKeyName, kf.keyName⟩]
  records := kf.entries.toList.map fun p => p.2.fields

theorem store_eq (kf : KeyFile) : kf.store = kf.text.encode := by
  have hs : (fun p : UInt32 × Entry => p.2.store) = fun p => recordBytes p.2.fields :=
    funext fun p => p.2.store_eq
  rw [store, KeyText.encode, text, List.flatMap_map, hs]
  by_cases h : kf.keyName = [] <;> simp [h, recordBytes, fieldBytes]

/-- The names the format can carry: none, or one that `load` will accept. -/
def Storable (kf : KeyFile) : Prop :=
  kf.keyName = [] ∨ ValidKeyName (cStr kf.keyName) ∧ kf.keyName.length ≤ 128

theorem text_wellFormed {kf : KeyFile} (h : kf.Storable) : kf.text.WellFormed := by
  constructor
  · intro f hf
    by_cases hn : kf.keyName = []
    · simp [text, hn] at hf
    · obtain ⟨hv, hl⟩ := h.resolve_left hn
      simp only [text, if_neg hn, List.mem_singleton] at hf
      subst hf
      exact Or.inl ⟨rfl, List.length_pos_iff.mpr hn, hl, hv⟩
  · intro r hr
    obtain ⟨p, -, rfl⟩ := List.mem_map.mp hr
    exact p.2.entryField_fields

/-- The stored text read back, whatever the name: one record for each version. -/
private theorem reads_text (kf : KeyFile) : kf.text.Reads kf := by
  constructor
  · by_cases h : kf.keyName = [] <;> simp [KeyText.keyName, text, lastPayload, h]
  · intro version
    have hmap : kf.text.records.map entryOf = kf.entries.toList.map (·.2) := by
      simp [text, entryOf_fields, Function.comp_def]
    have hkey : ∀ p ∈ kf.entries.toList,
        ((fun e : Entry => decide (e.version = version)) ∘ fun p => p.2) p = decide (p.1 = version) :=
      fun p hp => by simp [kf.keyed p hp]
    rw [KeyText.get, hmap, List.filter_map, List.filter_congr hkey, DescMap.filter_key]
    cases hget : kf.get version <;> rw [get] at hget <;> simp [hget]

theorem loadBytes_store {kf : KeyFile} (h : kf.Storable) : loadBytes kf.store = .ok kf := by
  rw [store_eq, loadBytes_encode (text_wellFormed h),
    kf.text.reads_toKeyFile.eq (reads_text kf)]

theorem cStr_of_validKeyName {name : Bytes} (h : ValidKeyName name) : cStr name = name := by
  refine List.takeWhile_eq_self_iff.mpr fun c hc => decide_eq_true ?_
  rintro rfl
  exact absurd ((validKeyName_iff.mp h).2.2.1 0 hc) (by decide)

/-- The name that was set is the name that is got, a legal one at least. -/
theorem getKeyName_setKeyName_add (kf : KeyFile) {keyName : Option Bytes} (h : LegalKeyName keyName)
    (key : Entry) : ((kf.setKeyName keyName).add key).getKeyName = keyName := by
  cases keyName with
  | none => rfl
  | some name =>
    have hv := h name rfl
    rw [getKeyName, keyName_add, setKeyName, Option.getD_some, if_neg (validKeyName_iff.mp hv).1,
      cStr_of_validKeyName hv]

theorem storable_of_validKeyName {kf : KeyFile} (h : ValidKeyName kf.keyName) : kf.Storable :=
  Or.inr ⟨by rwa [cStr_of_validKeyName h], (validKeyName_iff.mp h).2.2.2⟩

theorem storable_setKeyName_add (kf : KeyFile) {keyName : Option Bytes} (h : LegalKeyName keyName)
    (key : Entry) : ((kf.setKeyName keyName).add key).Storable := by
  cases keyName with
  | none => exact Or.inl rfl
  | some name => exact storable_of_validKeyName (h name rfl)

/-- Whatever `load` accepts can be stored, odd names included. -/
theorem storable_of_loadBytes {b : Bytes} {kf : KeyFile} (h : loadBytes b = .ok kf) :
    kf.Storable := by
  have hc := loadBytes_cases b
  rw [h] at hc
  obtain ⟨t, ht, -, rfl⟩ := hc
  rw [Storable, t.reads_toKeyFile.1, KeyText.keyName]
  cases hl : lastPayload headerFieldKeyName t.header with
  | none => exact Or.inl rfl
  | some name =>
    rcases ht.header _ (lastPayload_mem hl) with ⟨-, -, hlen, hv⟩ | hs
    · exact Or.inr ⟨hv, hlen⟩
    · exact absurd (show headerFieldKeyName.toNat % 2 = 0 from hs.2.1) (by decide)

/-- The words of a header have zero bytes: an id of 0, or the high byte of a length. -/
private theorem zero_mem_take {fs : List Field} (h : ∀ f ∈ fs, HeaderField f) (tail : Bytes) :
    (0 : UInt8) ∈ (recordBytes fs ++ tail).take 5 := by
  cases fs with
  | nil => simp [recordBytes, storeBe32]
  | cons f fs =>
    have hl : f.payload.length ≤ 2 ^ 20 := by
      rcases h f (by simp) with ⟨-, -, hl, -⟩ | hs
      · exact hl.trans (by decide)
      · exact hs.2.2
    have hz : (UInt32.ofNat f.payload.length >>> 24).toUInt8 = 0 := by
      rw [← UInt8.toNat_inj, UInt32.toNat_toUInt8, UInt32.toNat_shiftRight,
        UInt32.toNat_ofNat_of_lt' (lt_of_le_of_lt hl (by decide)), Nat.shiftRight_eq_div_pow]
      simp only [UInt32.reduceToNat, Nat.reduceMod, UInt8.toNat_zero]
      omega
    simp [recordBytes, fieldBytes, storeBe32, hz]

/-- A key file that loads again after a store has a name `load` accepts. The name is a C
string here: with zero bytes it could carry fields of its own past 2^32 bytes. -/
theorem validKeyName_of_loadBytes_store {kf kf' : KeyFile} (h0 : (0 : UInt8) ∉ kf.keyName)
    (hne : kf.keyName ≠ []) (h : loadBytes kf.store = .ok kf') : ValidKeyName kf.keyName := by
  have hc := loadBytes_cases kf.store
  rw [h] at hc
  obtain ⟨t, ht, henc, -⟩ := hc
  rw [store, if_neg hne, KeyText.encode] at henc
  simp only [List.append_assoc] at henc
  replace henc := List.append_cancel_left (List.append_cancel_left henc)
  cases hheader : t.header with
  | nil =>
    rw [hheader, recordBytes, List.flatMap_nil, List.nil_append] at henc
    exact absurd (storeBe32_injective (List.append_inj henc rfl).1) (by decide)
  | cons f fs =>
    have hfs : ∀ g ∈ f :: fs, HeaderField g := hheader ▸ ht.header
    rw [List.forall_mem_cons] at hfs
    rw [hheader, recordBytes, List.flatMap_cons, fieldBytes] at henc
    simp only [List.append_assoc] at henc
    obtain ⟨hid, henc⟩ := List.append_inj henc rfl
    obtain ⟨hlen, henc⟩ := List.append_inj henc rfl
    have hf : f.payload.length ≤ 128 ∧ ValidKeyName (cStr f.payload) := by
      rcases hfs.1 with ⟨-, -, hl, hv⟩ | hs
      · exact ⟨hl, hv⟩
      · exact absurd hs.2.1 (by rw [← storeBe32_injective hid]; decide)
    -- a longer name would have to hold the zero byte of the next word
    have hshort : kf.keyName.length < f.payload.length + 5 := by
      by_contra hlong
      have hz := zero_mem_take hfs.2 (t.records.flatMap recordBytes)
      have hdrop := congrArg (List.drop f.payload.length) henc
      rw [List.drop_left, List.drop_append_of_le_length (by omega)] at hdrop
      rw [recordBytes, List.append_assoc, ← hdrop, List.take_append_of_le_length (by simp; omega)] at hz
      exact h0 (List.mem_of_mem_drop (List.mem_of_mem_take hz))
    have h32 {n : Nat} (hn : n < 133) : n < UInt32.size := hn.trans (by decide)
    have hl := congrArg UInt32.toNat (storeBe32_injective hlen)
    rw [UInt32.toNat_ofNat_of_lt' (h32 (by omega)), UInt32.toNat_ofNat_of_lt' (h32 (by omega))] at hl
    have hname : kf.keyName = f.payload := (List.append_inj henc hl).1
    have hcstr : cStr kf.keyName = kf.keyName :=
      List.takeWhile_eq_self_iff.mpr fun c hc => decide_eq_true fun he => h0 (he ▸ hc)
    rw [← hcstr, hname]
    exact hf.2

/-- A load that succeeds has read the rest of a good stream. -/
theorem loadBytes_of_load {input rest : IStream} {kf : KeyFile} (h : empty.load input = (kf, .ok rest)) :
    loadBytes input.rest = .ok kf := by
  have hg : input.good = true := by
    by_contra hbad
    unfold load IStream.read at h
    rw [if_neg hbad] at h
    cases h
  have hload : empty.load (IStream.ofBytes input.rest) = empty.load input := by
    unfold load
    rw [IStream.read_of_good hg, IStream.read_of_good (IStream.ofBytes_good _), IStream.ofBytes_rest]
  rw [loadBytes, hload, h]

theorem load_of_loadBytes {b : Bytes} {kf : KeyFile} (h : loadBytes b = .ok kf) :
    ∃ rest, empty.load (IStream.ofBytes b) = (kf, .ok rest) := by
  unfold loadBytes at h
  split at h
  · rename_i kf' rest hload
    cases h
    exact ⟨rest, hload⟩
  · cases h

theorem legalKeyName_of_storable {kf : KeyFile} (h : kf.Storable) : LegalKeyName kf.getKeyName := by
  intro name hname
  unfold getKeyName at hname
  split_ifs at hname with hn
  cases hname
  exact (h.resolve_left hn).1

/-- Storing and loading gives back the name and the map, for every name the program can
have set, and for every key file that was itself loaded. -/
theorem store_load_round_trip :
    (∀ kf : KeyFile, kf.keyName = [] ∨ ValidKeyName kf.keyName → loadBytes kf.store = .ok kf) ∧
    (∀ b kf, loadBytes b = .ok kf → loadBytes kf.store = .ok kf) := by
  refine ⟨fun kf h => loadBytes_store ?_, fun b kf h => loadBytes_store (storable_of_loadBytes h)⟩
  rcases h with h | h
  · exact Or.inl h
  · exact storable_of_validKeyName h

theorem store_load_ends_of_range :
    let kf := ((empty.setKeyName (some (str "k"))).add Entry.zero).add ⟨0xffffffff, Buffer.zero, Buffer.zero⟩
    loadBytes kf.store = .ok kf ∧ ∃ b, loadBytes b = .ok kf := by
  intro kf
  have h := store_load_round_trip.1 kf (Or.inr (by decide))
  exact ⟨store_load_round_trip.2 kf.store kf h, kf.store, h⟩

end KeyFile
end GitCrypt
