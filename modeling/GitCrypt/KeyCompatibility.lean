import GitCrypt.KeyRoundTrip

/-! What `load` makes of fields it does not know, wherever they are put in, and of the names
in the fields it does know. -/
namespace GitCrypt
open Iostream Tlv

/-! ### Fields of later versions -/

/-- The second list is the first with elements of one kind put in, at any places. -/
inductive Inserts {α : Type} (P : α → Prop) : List α → List α → Prop
  | nil : Inserts P [] []
  | keep (a : α) {l l' : List α} : Inserts P l l' → Inserts P (a :: l) (a :: l')
  | insert {a : α} {l l' : List α} : P a → Inserts P l l' → Inserts P l (a :: l')

theorem Inserts.refl {α : Type} (P : α → Prop) (l : List α) : Inserts P l l := by
  induction l with
  | nil => exact .nil
  | cons a l ih => exact .keep a ih

/-- A selection that passes over what was put in does not notice it. -/
theorem Inserts.filter_eq {α : Type} {P : α → Prop} {l l' : List α} (h : Inserts P l l') {p : α → Bool}
    (hp : ∀ a, P a → p a = false) : l'.filter p = l.filter p := by
  induction h with
  | nil => rfl
  | keep a _ ih => rw [List.filter_cons, List.filter_cons, ih]
  | insert ha _ ih =>
    rw [List.filter_cons_of_neg (by simp [hp _ ha])]
    exact ih

theorem Inserts.forall {α : Type} {P Q : α → Prop} {l l' : List α} (h : Inserts P l l') (hP : ∀ a, P a → Q a)
    (hl : ∀ a ∈ l, Q a) : ∀ a ∈ l', Q a := by
  induction h with
  | nil => exact hl
  | keep a _ ih =>
    obtain ⟨ha, hl⟩ := List.forall_mem_cons.mp hl
    exact List.forall_mem_cons.mpr ⟨ha, ih hl⟩
  | insert ha _ ih => exact List.forall_mem_cons.mpr ⟨hP _ ha, ih hl⟩

/-- The ids the format knows are odd, so fields that may be skipped leave no payload behind. -/
theorem lastPayload_inserts {fieldId : UInt32} (hodd : fieldId.toNat % 2 = 1) {fs fs' : List Field}
    (h : Inserts SkippedField fs fs') : lastPayload fieldId fs' = lastPayload fieldId fs := by
  have hpass (f : Field) (hf : SkippedField f) : decide (f.id = fieldId) = false := by
    refine decide_eq_false ?_
    rintro rfl
    exact absurd hf.2.1 (by omega)
  rw [lastPayload, lastPayload, h.filter_eq hpass]

private theorem entryOf_inserts {fs fs' : List Field} (h : Inserts SkippedField fs fs') : entryOf fs' = entryOf fs := by
  rw [entryOf, entryOf, lastPayload_inserts (by decide) h, lastPayload_inserts (by decide) h,
    lastPayload_inserts (by decide) h]

namespace KeyText

/-- Fields that may be skipped are put into the header and into the records. -/
structure Extended (t t' : KeyText) : Prop where
  header : Inserts SkippedField t.header t'.header
  records : List.Forall₂ (Inserts SkippedField) t.records t'.records

/-- One field with an odd id is put in, into the header or into a record, which does not know
the id. -/
inductive CriticallyExtended : KeyText → KeyText → Prop
  | header {f : Field} (hodd : f.id.toNat % 2 = 1) (hunknown : f.id ≠ headerFieldKeyName) (before after : List Field)
      (records : List (List Field)) :
      CriticallyExtended ⟨before ++ after, records⟩ ⟨before ++ f :: after, records⟩
  | record {f : Field} (hodd : f.id.toNat % 2 = 1)
      (hunknown : f.id ≠ keyFieldVersion ∧ f.id ≠ keyFieldAesKey ∧ f.id ≠ keyFieldHmacKey)
      (header before after : List Field) (earlier later : List (List Field)) :
      CriticallyExtended ⟨header, earlier ++ (before ++ after) :: later⟩
        ⟨header, earlier ++ (before ++ f :: after) :: later⟩

theorem Extended.wellFormed {t t' : KeyText} (h : t.Extended t') (ht : t.WellFormed) : t'.WellFormed := by
  have hrecords {rs rs' : List (List Field)} (hext : List.Forall₂ (Inserts SkippedField) rs rs')
      (hrs : ∀ r ∈ rs, ∀ f ∈ r, EntryField f) : ∀ r ∈ rs', ∀ f ∈ r, EntryField f := by
    induction hext with
    | nil => exact hrs
    | cons hr _ ih =>
      obtain ⟨hfirst, hrest⟩ := List.forall_mem_cons.mp hrs
      exact List.forall_mem_cons.mpr ⟨hr.forall (fun f hs => .inr (.inr (.inr hs))) hfirst, ih hrest⟩
  exact ⟨h.header.forall (fun f => Or.inr) ht.header, hrecords h.records ht.records⟩

private theorem map_entryOf_inserts {rs rs' : List (List Field)} (h : List.Forall₂ (Inserts SkippedField) rs rs') :
    rs'.map entryOf = rs.map entryOf := by
  induction h with
  | nil => rfl
  | cons hr _ ih => rw [List.map_cons, List.map_cons, entryOf_inserts hr, ih]

theorem Extended.reads {t t' : KeyText} (h : t.Extended t') {kf : KeyFile} (hr : t.Reads kf) : t'.Reads kf := by
  refine ⟨?_, fun version => ?_⟩
  · rw [hr.1, keyName, keyName, lastPayload_inserts (by decide) h.header]
  · rw [hr.2, get, get, map_entryOf_inserts h.records]

theorem CriticallyExtended.incompatible {t t' : KeyText} (h : t.CriticallyExtended t') (ht : t.WellFormed) :
    IncompatibleText t'.encode := by
  cases h with
  | @header f hodd hunknown before after records =>
    have hbefore : ∀ g ∈ before, HeaderField g := fun g hg => ht.header g (List.mem_append_left _ hg)
    refine .inr (.inl ⟨before, f.id, UInt32.ofNat f.payload.length,
      f.payload ++ recordBytes after ++ records.flatMap recordBytes, hbefore, hodd, hunknown, ?_⟩)
    simp only [encode, recordBytes, List.flatMap_append, List.flatMap_cons, fieldBytes, List.append_assoc]
  | @record f hodd hunknown header before after earlier later =>
    have hfirst : WellFormed ⟨header, earlier⟩ := ⟨ht.header, fun r hr => ht.records r (List.mem_append_left _ hr)⟩
    have hbefore : ∀ g ∈ before, EntryField g := fun g hg =>
      ht.records (before ++ after) (by simp) g (List.mem_append_left _ hg)
    refine .inr (.inr ⟨⟨header, earlier⟩, before, f.id, UInt32.ofNat f.payload.length,
      f.payload ++ recordBytes after ++ later.flatMap recordBytes, hfirst, hbefore, hodd, hunknown.1, hunknown.2.1,
      hunknown.2.2, ?_⟩)
    simp only [encode, recordBytes, List.flatMap_append, List.flatMap_cons, fieldBytes, List.append_assoc]

end KeyText

namespace KeyFile

/-- Every text that is accepted stays accepted, as the same key file, when fields with even ids
are put in between its fields, and becomes incompatible when one field with an unknown odd id
is. -/
theorem load_forward_compatible {b : Bytes} {kf : KeyFile} (h : loadBytes b = .ok kf) :
    ∃ t : KeyText, t.WellFormed ∧ b = t.encode ∧ (∀ t', t.Extended t' → loadBytes t'.encode = .ok kf) ∧
      ∀ t', t.CriticallyExtended t' → loadBytes t'.encode = .error .incompatible := by
  obtain ⟨t, ht, hb, hr⟩ := ((load_decides_grammar b).1 kf).mp h
  refine ⟨t, ht, hb, fun t' hext => ?_, fun t' hext => loadBytes_incompatible (hext.incompatible ht)⟩
  exact ((load_decides_grammar t'.encode).1 kf).mpr ⟨t', hext.wellFormed ht, rfl, hext.reads hr⟩

/-- A key file with one entry has such a text. -/
theorem load_forward_compatible_single : ∃ t : KeyText, t.WellFormed ∧ (empty.add Entry.zero).store = t.encode ∧
    (∀ t', t.Extended t' → loadBytes t'.encode = .ok (empty.add Entry.zero)) ∧
      ∀ t', t.CriticallyExtended t' → loadBytes t'.encode = .error .incompatible :=
  load_forward_compatible (loadBytes_store (.inl rfl))

/-! ### Names -/

/-- A name that is legal in all of its bytes. -/
def ValidInFull (name : Bytes) : Prop :=
  (∀ c ∈ name, KeyNameChar c) ∧ 1 ≤ name.length ∧ name.length ≤ keyNameMaxLen.toNat ∧ name ≠ str "default"

private theorem validInFull_iff {name : Bytes} : ValidInFull name ↔ ValidKeyName name := by
  rw [validKeyName_iff, ValidInFull, Nat.one_le_iff_ne_zero, Ne, List.length_eq_zero_iff,
    show keyNameMaxLen.toNat = 128 from rfl]
  tauto

/-- Up to its first zero byte a loaded name is always legal, so all of it is exactly when there
is no zero byte in the last name field of the text. -/
theorem loaded_name_valid_iff {b : Bytes} {kf : KeyFile} (h : loadBytes b = .ok kf) :
    kf.keyName = [] ∨ ValidInFull kf.keyName ↔
      ∃ t : KeyText, t.WellFormed ∧ b = t.encode ∧
        ∀ payload, lastPayload headerFieldKeyName t.header = some payload → (0 : UInt8) ∉ payload := by
  obtain ⟨t, ht, hb, hr⟩ := ((load_decides_grammar b).1 kf).mp h
  have hname : kf.keyName = (lastPayload headerFieldKeyName t.header).getD [] := hr.1
  constructor
  · intro hvalid
    refine ⟨t, ht, hb, fun payload hp hzero => ?_⟩
    rw [hname, hp, Option.getD_some] at hvalid
    rcases hvalid with rfl | hvalid
    · cases hzero
    · exact absurd (hvalid.1 0 hzero) (by decide)
  · rintro ⟨t', ht', hb', hzero⟩
    obtain rfl : t = t' := KeyText.encode_inj ht ht' (hb.symm.trans hb')
    refine (storable_of_loadBytes h).imp_right fun ⟨hv, _⟩ => ?_
    cases hp : lastPayload headerFieldKeyName t.header with
    | none =>
      rw [hname, hp] at hv
      exact absurd rfl (validKeyName_iff.mp hv).1
    | some payload =>
      rw [hname, hp, Option.getD_some] at hv ⊢
      have hcstr : cStr payload = payload :=
        List.takeWhile_eq_self_iff.mpr fun c hc => decide_eq_true fun he => hzero payload hp (he ▸ hc)
      rw [validInFull_iff, ← hcstr]
      exact hv

theorem loaded_name_valid_iff_single :
    (empty.setKeyName (some (str "k"))).keyName = [] ∨ ValidInFull (empty.setKeyName (some (str "k"))).keyName ↔
      ∃ t : KeyText, t.WellFormed ∧ (empty.setKeyName (some (str "k"))).store = t.encode ∧
        ∀ payload, lastPayload headerFieldKeyName t.header = some payload → (0 : UInt8) ∉ payload :=
  loaded_name_valid_iff (loadBytes_store (storable_of_validKeyName (by decide)))

/-- The name `a`, a zero byte, and the path of another file. -/
theorem load_accepts_zero_byte : ∃ (b : Bytes) (kf : KeyFile), loadBytes b = .ok kf ∧ kf.keyName = str "a" ++ 0 :: str "/../b" ∧
    ¬ (kf.keyName = [] ∨ ValidInFull kf.keyName) := by
  let kf : KeyFile := { empty with keyName := str "a" ++ 0 :: str "/../b" }
  refine ⟨kf.store, kf, loadBytes_store (.inr (by decide +kernel)), rfl, ?_⟩
  rintro (hnil | hvalid)
  · exact absurd hnil (by decide)
  · exact absurd (hvalid.1 0 (by simp [kf])) (by decide)

end KeyFile
end GitCrypt
