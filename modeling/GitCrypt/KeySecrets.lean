import GitCrypt.KeyRoundTrip

/-! Where the keys of a loaded entry come from. `Entry::load` never asks whether a field
was there, so an entry holds only bytes of its record exactly when the record has all
three fields. -/
namespace GitCrypt
open Tlv

def KeyText.Parses (t : KeyText) (b : Bytes) : Prop := t.WellFormed ∧ b = t.encode

/-- The text cut after its first records. -/
def KeyText.upTo (t : KeyText) (records : List (List Field)) : KeyText := ⟨t.header, records⟩

/-- An entry whose version and keys all are payloads of fields of one record. -/
structure Entry.TakenFrom (e : Entry) (r : List Field) : Prop where
  version : ⟨keyFieldVersion, storeBe32 e.version⟩ ∈ r
  aesKey : ⟨keyFieldAesKey, e.aesKey.toBytes⟩ ∈ r
  hmacKey : ⟨keyFieldHmacKey, e.hmacKey.toBytes⟩ ∈ r

/-- A record with a field of each kind. -/
def CompleteRecord (r : List Field) : Prop :=
  ∀ fieldId ∈ [keyFieldVersion, keyFieldAesKey, keyFieldHmacKey], ∃ f ∈ r, f.id = fieldId

namespace KeyFile

/-- Every entry of the result is taken from a record, and what `load` does with any one
record is to add an entry taken from that record. -/
structure NoDefaultedSecrets (kf : KeyFile) (b : Bytes) : Prop where
  entries : ∀ t : KeyText, t.Parses b → ∀ version e, kf.get version = some e →
    ∃ r ∈ t.records, e.TakenFrom r
  records : ∀ t : KeyText, t.Parses b → ∀ before r after, t.records = before ++ r :: after →
    ∀ kf₀ kf₁, loadBytes (t.upTo before).encode = .ok kf₀ →
      loadBytes (t.upTo (before ++ [r])).encode = .ok kf₁ → ∃ e, kf₁ = kf₀.add e ∧ e.TakenFrom r

end KeyFile

private theorem lastPayload_isSome {fieldId : UInt32} {r : List Field} {f : Field} (hf : f ∈ r)
    (hid : f.id = fieldId) : ∃ payload, lastPayload fieldId r = some payload := by
  have hm : f ∈ r.filter (·.id = fieldId) := List.mem_filter.mpr ⟨hf, decide_eq_true hid⟩
  rw [lastPayload, List.getLast?_eq_some_getLast (List.ne_nil_of_mem hm)]
  exact ⟨_, rfl⟩

/-- An accepted field of an odd id has the length that id asks for. -/
private theorem length_of_entryField {fieldId : UInt32} {payload : Bytes}
    (h : EntryField ⟨fieldId, payload⟩) :
    (fieldId = keyFieldVersion → payload.length = 4) ∧
      (fieldId = keyFieldAesKey → payload.length = 32) ∧
      (fieldId = keyFieldHmacKey → payload.length = 64) := by
  rcases h with ⟨hid, hl⟩ | ⟨hid, hl⟩ | ⟨hid, hl⟩ | hs
  · obtain rfl : fieldId = keyFieldVersion := hid
    simpa using hl
  · obtain rfl : fieldId = keyFieldAesKey := hid
    simpa using hl
  · obtain rfl : fieldId = keyFieldHmacKey := hid
    simpa using hl
  · have he : fieldId.toNat % 2 = 0 := hs.2.1
    refine ⟨?_, ?_, ?_⟩ <;> rintro rfl <;> exact absurd he (by decide)

theorem entryOf_takenFrom {r : List Field} (h : ∀ f ∈ r, EntryField f) (hc : CompleteRecord r) :
    (entryOf r).TakenFrom r := by
  have hget : ∀ fieldId ∈ [keyFieldVersion, keyFieldAesKey, keyFieldHmacKey],
      ∃ payload, lastPayload fieldId r = some payload ∧ ⟨fieldId, payload⟩ ∈ r ∧
        EntryField ⟨fieldId, payload⟩ := by
    intro fieldId hid
    obtain ⟨f, hf, hfid⟩ := hc fieldId hid
    obtain ⟨payload, hp⟩ := lastPayload_isSome hf hfid
    exact ⟨payload, hp, lastPayload_mem hp, h _ (lastPayload_mem hp)⟩
  constructor
  · obtain ⟨payload, hp, hm, he⟩ := hget keyFieldVersion (by simp)
    have hl := (length_of_entryField he).1 rfl
    simpa [entryOf, hp, storeBe32_loadBe32 hl] using hm
  · obtain ⟨payload, hp, hm, he⟩ := hget keyFieldAesKey (by simp)
    have hl := (length_of_entryField he).2.1 rfl
    simpa [entryOf, hp, Buffer.toBytes_ofBytes hl] using hm
  · obtain ⟨payload, hp, hm, he⟩ := hget keyFieldHmacKey (by simp)
    have hl := (length_of_entryField he).2.2 rfl
    simpa [entryOf, hp, Buffer.toBytes_ofBytes hl] using hm

theorem Entry.TakenFrom.complete {e : Entry} {r : List Field} (h : e.TakenFrom r) :
    CompleteRecord r := by
  intro fieldId hid
  simp only [List.mem_cons, List.not_mem_nil, or_false] at hid
  rcases hid with rfl | rfl | rfl
  · exact ⟨_, h.version, rfl⟩
  · exact ⟨_, h.aesKey, rfl⟩
  · exact ⟨_, h.hmacKey, rfl⟩

/-- Cutting a well-formed text between records leaves it well-formed. -/
private theorem wellFormed_upTo {t : KeyText} (h : t.WellFormed) {rs : List (List Field)}
    (hrs : ∀ r ∈ rs, r ∈ t.records) : (t.upTo rs).WellFormed :=
  ⟨h.header, fun r hr => h.records r (hrs r hr)⟩

/-- One more record adds the entry it stands for. -/
private theorem toKeyFile_upTo_snoc (t : KeyText) (before : List (List Field)) (r : List Field) :
    (t.upTo (before ++ [r])).toKeyFile = (t.upTo before).toKeyFile.add (entryOf r) := by
  simp only [KeyText.toKeyFile, KeyText.upTo, KeyFile.addRecords, List.foldl_append,
    List.foldl_cons, List.foldl_nil]
  rfl

namespace KeyFile

private theorem takenFrom_of_complete {t : KeyText} (ht : t.WellFormed)
    (hc : ∀ r ∈ t.records, CompleteRecord r) {version : UInt32} {e : Entry}
    (he : t.toKeyFile.get version = some e) : ∃ r ∈ t.records, e.TakenFrom r := by
  rw [t.reads_toKeyFile.2, KeyText.get] at he
  obtain ⟨hm, -⟩ := List.mem_filter.mp (List.mem_of_getLast? he)
  obtain ⟨r, hr, rfl⟩ := List.mem_map.mp hm
  exact ⟨r, hr, entryOf_takenFrom (ht.records r hr) (hc r hr)⟩

/-- The two parts of the property, for a text and the key file it is read as. -/
private theorem noDefaultedSecrets_of_complete {t : KeyText} (ht : t.WellFormed)
    (hc : ∀ r ∈ t.records, CompleteRecord r) : NoDefaultedSecrets t.toKeyFile t.encode := by
  constructor
  · rintro t' ⟨ht', he⟩ version e hget
    obtain rfl := KeyText.encode_inj ht ht' he
    exact takenFrom_of_complete ht hc hget
  · rintro t' ⟨ht', he⟩ before r after hsplit kf₀ kf₁ h₀ h₁
    obtain rfl := KeyText.encode_inj ht ht' he
    rw [loadBytes_encode (wellFormed_upTo ht (by simp [hsplit]; tauto))] at h₀ h₁
    cases h₀
    cases h₁
    have hr : r ∈ t.records := by simp [hsplit]
    exact ⟨entryOf r, toKeyFile_upTo_snoc t before r,
      entryOf_takenFrom (ht.records r hr) (hc r hr)⟩

/-- For an accepted input the loaded keys all come from its fields if and only if each of
its records has a version, an AES key and an HMAC key. -/
theorem load_takes_keys_from_fields_iff {b : Bytes} {kf : KeyFile} (h : loadBytes b = .ok kf) :
    NoDefaultedSecrets kf b ↔
      ∀ t : KeyText, t.Parses b → ∀ r ∈ t.records, CompleteRecord r := by
  obtain ⟨t, ht, rfl, rfl⟩ : ∃ t : KeyText, t.WellFormed ∧ b = t.encode ∧ kf = t.toKeyFile := by
    have hc := loadBytes_cases b
    rwa [h] at hc
  constructor
  · rintro hs t' ⟨ht', he⟩ r hr
    obtain ⟨before, after, hsplit⟩ := List.append_of_mem hr
    have hb : ∀ r ∈ before, r ∈ t'.records := by simp [hsplit]; tauto
    have hb' : ∀ r' ∈ before ++ [r], r' ∈ t'.records := by simp [hsplit]; tauto
    obtain ⟨e, -, htaken⟩ := hs.records t' ⟨ht', he⟩ before r after hsplit _ _
      (loadBytes_encode (wellFormed_upTo ht' hb)) (loadBytes_encode (wellFormed_upTo ht' hb'))
    exact htaken.complete
  · intro hc
    exact noDefaultedSecrets_of_complete ht (hc t ⟨ht, rfl⟩)

/-- The 24 bytes of a key file with an empty header and one empty record. -/
def emptyRecordFile : Bytes := preambleMagic ++ storeBe32 formatVersion ++ storeBe32 0 ++ storeBe32 0

private theorem emptyRecordFile_parses : (⟨[], [[]]⟩ : KeyText).Parses emptyRecordFile :=
  ⟨⟨by simp, by simp⟩, rfl⟩

private theorem loadBytes_emptyRecordFile : loadBytes emptyRecordFile = .ok (empty.add Entry.zero) := by
  rw [emptyRecordFile_parses.2, loadBytes_encode emptyRecordFile_parses.1]
  rfl

/-- An empty record is accepted as version 0 with two all-zero keys. -/
theorem load_defaults_missing_keys :
    loadBytes emptyRecordFile = .ok (empty.add Entry.zero) ∧
      ¬ NoDefaultedSecrets (empty.add Entry.zero) emptyRecordFile := by
  refine ⟨loadBytes_emptyRecordFile, fun h => ?_⟩
  obtain ⟨r, hr, htaken⟩ := h.entries _ emptyRecordFile_parses 0 Entry.zero (get_add_self _ _)
  rw [List.mem_singleton.mp hr] at htaken
  exact absurd htaken.version (List.not_mem_nil)

/-- Everything `store` writes has complete records. -/
private theorem completeRecord_text (kf : KeyFile) : ∀ r ∈ kf.text.records, CompleteRecord r := by
  intro r hr
  obtain ⟨p, -, rfl⟩ := List.mem_map.mp hr
  simp [CompleteRecord, Entry.fields]

theorem stored_keys_come_from_fields :
    NoDefaultedSecrets (empty.add Entry.zero) (empty.add Entry.zero).store := by
  have hs : (empty.add Entry.zero).Storable := Or.inl rfl
  refine (load_takes_keys_from_fields_iff (loadBytes_store hs)).mpr fun t ht => ?_
  obtain rfl := KeyText.encode_inj (text_wellFormed hs) ht.1 ((store_eq _).symm.trans ht.2)
  exact completeRecord_text _

end KeyFile
end GitCrypt
