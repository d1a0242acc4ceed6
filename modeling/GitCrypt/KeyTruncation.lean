import GitCrypt.KeyRoundTrip

/-! What `load` makes of a key file that was cut off. The format has neither a length nor a
count, so a cut behind the header or behind a record is not noticed. -/
namespace GitCrypt
open Iostream Tlv

namespace KeyText

/-- The text without its later records. -/
def take (t : KeyText) (n : Nat) : KeyText := { t with records := t.records.take n }

theorem WellFormed.take {t : KeyText} (h : t.WellFormed) (n : Nat) : (t.take n).WellFormed :=
  ⟨h.header, fun r hr => h.records r (List.mem_of_mem_take hr)⟩

private theorem encode_take_isPrefix (t : KeyText) (n : Nat) : (t.take n).encode <+: t.encode := by
  refine ⟨(t.records.drop n).flatMap recordBytes, ?_⟩
  rw [encode, encode, List.append_assoc, take, ← List.flatMap_append, List.take_append_drop]

/-- Records in front of other bytes are the first ones of all records. -/
private theorem records_isPrefix {rs ss : List (List Field)} {tail : Bytes} (hr : ∀ r ∈ rs, ∀ f ∈ r, Delimited f)
    (hs : ∀ s ∈ ss, ∀ f ∈ s, Delimited f) (h : rs.flatMap recordBytes ++ tail = ss.flatMap recordBytes) :
    rs <+: ss := by
  induction rs generalizing ss with
  | nil => exact List.nil_prefix
  | cons r rs ih =>
    obtain ⟨hr₀, hrs⟩ := List.forall_mem_cons.mp hr
    cases ss with
    | nil =>
      rw [List.flatMap_cons, List.append_assoc, List.flatMap_nil] at h
      exact absurd (List.append_eq_nil_iff.mp h).1 (recordBytes_ne_nil r)
    | cons s ss =>
      obtain ⟨hs₀, hss⟩ := List.forall_mem_cons.mp hs
      rw [List.flatMap_cons, List.append_assoc, List.flatMap_cons] at h
      obtain ⟨rfl, htail⟩ := recordBytes_append_inj hr₀ hs₀ h
      exact List.cons_prefix_cons.mpr ⟨rfl, ih hrs hss htail⟩

/-- A text in front of other bytes is the first part of the text they make up together. -/
private theorem eq_take_of_encode_append {t t' : KeyText} (ht : t.WellFormed) (ht' : t'.WellFormed) {tail : Bytes}
    (h : t'.encode ++ tail = t.encode) : ∃ n, t' = t.take n := by
  simp only [encode, List.append_assoc] at h
  have h := List.append_cancel_left (List.append_cancel_left h)
  obtain ⟨hheader, h⟩ := recordBytes_append_inj (fun f hf => delimited_of_header (ht'.header f hf))
    (fun f hf => delimited_of_header (ht.header f hf)) h
  have hrecords := records_isPrefix (fun r hr f hf => delimited_of_entry (ht'.records r hr f hf))
    (fun r hr f hf => delimited_of_entry (ht.records r hr f hf)) h
  refine ⟨t'.records.length, ?_⟩
  rw [take, ← hheader, ← List.prefix_iff_eq_take.mp hrecords]

end KeyText

/-- What makes bytes incompatible is not undone by more bytes. -/
theorem IncompatibleText.append {b : Bytes} (h : IncompatibleText b) (more : Bytes) : IncompatibleText (b ++ more) := by
  rcases h with ⟨version, tail, hv, rfl⟩ | ⟨fs, fieldId, len, tail, hfs, ho, hk, rfl⟩ |
    ⟨t, fs, fieldId, len, tail, ht, hfs, ho, h1, h3, h5, rfl⟩
  · exact .inl ⟨version, tail ++ more, hv, by simp only [List.append_assoc]⟩
  · exact .inr (.inl ⟨fs, fieldId, len, tail ++ more, hfs, ho, hk, by simp only [List.append_assoc]⟩)
  · exact .inr (.inr ⟨t, fs, fieldId, len, tail ++ more, ht, hfs, ho, h1, h3, h5, by simp only [List.append_assoc]⟩)

namespace KeyFile

/-- A text that is cut off within its header or within a record is malformed. -/
private theorem loadBytes_of_isPrefix {t : KeyText} (ht : t.WellFormed) {b : Bytes} (hb : b <+: t.encode) :
    loadBytes b = .error .malformed ∨ ∃ n, b = (t.take n).encode := by
  obtain ⟨tail, htail⟩ := hb
  have hc := loadBytes_cases b
  cases hload : loadBytes b with
  | ok kf =>
    rw [hload] at hc
    obtain ⟨t', ht', rfl, -⟩ := hc
    obtain ⟨n, rfl⟩ := KeyText.eq_take_of_encode_append ht ht' htail
    exact .inr ⟨n, rfl⟩
  | error e =>
    cases e with
    | malformed => exact .inl rfl
    | incompatible =>
      rw [hload] at hc
      have hall := loadBytes_incompatible (htail ▸ hc.append tail)
      rw [loadBytes_encode ht] at hall
      cases hall

/-- Only a name that can be stored is read from a field of its own, whole. -/
private theorem storable_of_fields {kf : KeyFile} (hlen : kf.keyName.length < 2 ^ 32) {fs : List Field}
    (hfs : ∀ f ∈ fs, HeaderField f) {w : UInt32} (hw : w ≠ headerFieldKeyName) {a b : Bytes}
    (h : fs.flatMap fieldBytes ++ (storeBe32 w ++ a) = fieldBytes ⟨headerFieldKeyName, kf.keyName⟩ ++ b) :
    kf.Storable := by
  cases fs with
  | nil =>
    simp only [List.flatMap_nil, List.nil_append, fieldBytes, List.append_assoc] at h
    exact absurd (storeBe32_injective (List.append_inj h rfl).1) hw
  | cons f fs =>
    rw [List.flatMap_cons, List.append_assoc] at h
    have hf := hfs f (by simp)
    obtain ⟨rfl, -⟩ := fieldBytes_append_inj (delimited_of_header hf).2 hlen h
    rcases hf with ⟨-, -, hl, hv⟩ | hs
    · exact .inr ⟨hv, hl⟩
    · exact absurd hs.2.1 (show ¬ headerFieldKeyName.toNat % 2 = 0 by decide)

/-- With any other name every part of what is stored is malformed. -/
private theorem loadBytes_prefix_of_not_storable {kf : KeyFile} (hlen : kf.keyName.length < 2 ^ 32) (hs : ¬ kf.Storable)
    {b : Bytes} (hb : b <+: kf.store) : loadBytes b = .error .malformed := by
  obtain ⟨tail, htail⟩ := hb
  have hne : kf.keyName ≠ [] := fun hnil => hs (.inl hnil)
  rw [store, if_neg hne] at htail
  simp only [List.append_assoc] at htail
  have hfields {fs : List Field} (hfs : ∀ f ∈ fs, HeaderField f) {w : UInt32} (hw : w ≠ headerFieldKeyName)
      (rest : Bytes) : preambleMagic ++ (storeBe32 formatVersion ++ (fs.flatMap fieldBytes ++ (storeBe32 w ++ rest))) ≠
        b ++ tail := by
    intro he
    rw [htail] at he
    have h := List.append_cancel_left (List.append_cancel_left he)
    simp only [← List.append_assoc (storeBe32 headerFieldKeyName),
      ← List.append_assoc (storeBe32 headerFieldKeyName ++ _)] at h
    exact hs (storable_of_fields hlen hfs hw h)
  have hzero : (0 : UInt32) ≠ headerFieldKeyName := by decide
  have hc := loadBytes_cases b
  cases hload : loadBytes b with
  | ok kf' =>
    rw [hload] at hc
    obtain ⟨t, ht, rfl, -⟩ := hc
    refine absurd ?_ (hfields ht.header hzero (t.records.flatMap recordBytes ++ tail))
    simp only [KeyText.encode, recordBytes, List.append_assoc]
  | error e =>
    cases e with
    | malformed => rfl
    | incompatible =>
      rw [hload] at hc
      rcases hc with ⟨version, rest, hv, rfl⟩ | ⟨fs, fieldId, len, rest, hfs, ho, hk, rfl⟩ |
        ⟨t, fs, fieldId, len, rest, ht, hfs, ho, h1, h3, h5, rfl⟩
      · simp only [List.append_assoc] at htail
        have h := (List.append_inj (List.append_cancel_left htail) rfl).1
        exact absurd (storeBe32_injective h) hv
      · refine absurd ?_ (hfields hfs hk (storeBe32 len ++ (rest ++ tail)))
        simp only [List.append_assoc]
      · refine absurd ?_ (hfields ht.header hzero (t.records.flatMap recordBytes ++
          (fs.flatMap fieldBytes ++ (storeBe32 fieldId ++ (storeBe32 len ++ (rest ++ tail))))))
        simp only [KeyText.encode, recordBytes, List.append_assoc]

/-- The key file with the newest `n` entries only. -/
def newest (kf : KeyFile) (n : Nat) : KeyFile where
  entries := kf.entries.take n
  keyName := kf.keyName
  keyed p hp := kf.keyed p (List.mem_of_mem_take hp)

private theorem text_newest (kf : KeyFile) (n : Nat) : (kf.newest n).text = kf.text.take n := by
  rw [text, text, KeyText.take, ← List.map_take]
  rfl

theorem store_newest (kf : KeyFile) (n : Nat) : (kf.newest n).store = (kf.text.take n).encode := by
  rw [store_eq, text_newest]

theorem store_newest_isPrefix (kf : KeyFile) (n : Nat) : (kf.newest n).store <+: kf.store := by
  rw [store_newest, store_eq]
  exact kf.text.encode_take_isPrefix n

/-- A key file that was cut off is malformed, unless it ends right behind its header or behind
one of its records. Then, if its name can be read at all, it is read as a key file with the
same name and the newest entries, those before the cut. -/
theorem load_cut_off {kf : KeyFile} (hlen : kf.keyName.length < 2 ^ 32) {b : Bytes} (hb : b <+: kf.store) :
    (loadBytes b = .error .malformed ↔ ¬ (kf.Storable ∧ ∃ n, b = (kf.newest n).store)) ∧
      ∀ n, kf.Storable → b = (kf.newest n).store → loadBytes b = .ok (kf.newest n) := by
  have hread (n : Nat) (hs : kf.Storable) (he : b = (kf.newest n).store) : loadBytes b = .ok (kf.newest n) := by
    rw [he]
    exact @loadBytes_store (kf.newest n) hs
  refine ⟨⟨?_, fun h => ?_⟩, hread⟩
  · rintro hm ⟨hs, n, he⟩
    rw [hread n hs he] at hm
    cases hm
  · by_cases hs : kf.Storable
    · rw [store_eq] at hb
      refine (loadBytes_of_isPrefix (text_wellFormed hs) hb).resolve_right ?_
      rintro ⟨n, he⟩
      exact h ⟨hs, n, by rw [he, store_newest]⟩
    · exact loadBytes_prefix_of_not_storable hlen hs hb

/-- Two entries, of which the older one is cut off. -/
theorem load_cut_off_renewed :
    let kf := (empty.add Entry.zero).add ⟨1, Buffer.zero, Buffer.zero⟩
    (kf.newest 1).store <+: kf.store ∧ loadBytes (kf.newest 1).store = .ok (kf.newest 1) := by
  intro kf
  exact ⟨kf.store_newest_isPrefix 1, (load_cut_off (by decide) (kf.store_newest_isPrefix 1)).2 1 (.inl rfl) rfl⟩

/-- What is left of this key file is accepted, without its entry. -/
theorem load_accepts_cut_off : ∃ (kf kf' : KeyFile) (b : Bytes), kf.isEmpty = false ∧ b <+: kf.store ∧ b ≠ kf.store ∧
    loadBytes b = .ok kf' ∧ kf'.isEmpty = true := by
  let kf := empty.add Entry.zero
  have hb := kf.store_newest_isPrefix 0
  refine ⟨kf, kf.newest 0, (kf.newest 0).store, by decide, hb, ?_, loadBytes_store (.inl rfl), by decide⟩
  intro he
  have hlength := congrArg List.length he
  exact absurd hlength (by decide +kernel)

end KeyFile
end GitCrypt
