import GitCrypt.Commands
import GitCrypt.Filter
import GitCrypt.KeyRoundTrip

/-! Which version of a key encrypts and which decrypts. `clean` and `add_gpg_user` take the
latest entry, `smudge`, `diff` and `unlock` a fixed version. -/
namespace GitCrypt

/-- The calls that change the entries of a key file. -/
inductive KeyChange where
  | generate (draw : Draw)
  | add (key : Entry)

namespace KeyFile

/-- The key file after a call, whether it throws or not. -/
def change (kf : KeyFile) : KeyChange → KeyFile
  | .generate draw => (kf.generate draw).1
  | .add key => kf.add key

def changes (kf : KeyFile) (steps : List KeyChange) : KeyFile := steps.foldl change kf

/-- In the end, what `clean` wrote at any stage is decrypted with the entry it was written
with, and `unlock` asks for the version that is shared. -/
structure VersionsAgree (kf : KeyFile) (steps : List KeyChange) : Prop where
  decrypts : ∀ stage, stage <+: steps →
    (kf.changes steps).get decryptKeyVersion = (kf.changes stage).getLatest
  shared : ∀ key, (kf.changes steps).getLatest = some key → key.version = unlockKeyVersion

private theorem exists_getLatest {kf : KeyFile} (h : kf.isEmpty = false) : ∃ key, kf.getLatest = some key := by
  cases hl : kf.getLatest with
  | some key => exact ⟨key, rfl⟩
  | none =>
    have hnil : kf = { kf with entries := .empty, keyed := by simp [DescMap.empty] } :=
      ext_get (fun version => getLatest_eq_none.mp hl version) rfl
    rw [hnil] at h
    cases h

/-- The entry `generate` adds is the latest, as long as versions do not wrap around. -/
theorem getLatest_generate {kf : KeyFile} {key : Entry} (h : kf.getLatest = some key)
    (hw : key.version < key.version + 1) (draw : Draw) :
    ∃ key', (kf.generate draw).1.getLatest = some key' ∧ key'.version = key.version + 1 := by
  obtain ⟨hget, hle⟩ := getLatest_eq_some.mp h
  unfold generate
  rw [latest_eq_ok.mpr ⟨key, hget, hle⟩]
  dsimp only
  have hv := Entry.generate_version (kf.slot (key.version + 1)) (key.version + 1) draw
  rcases hg : (kf.slot (key.version + 1)).generate (key.version + 1) draw with ⟨key', res⟩
  rw [hg] at hv
  refine ⟨key', getLatest_eq_some.mpr ⟨get_add_self _ _, fun v hs => ?_⟩, hv⟩
  rw [get_add] at hs
  split_ifs at hs with he
  · exact he.ge
  · exact (hle v hs).trans (by rw [hv]; exact hw.le)

/-- Version 0 stays the latest only if the same entry is added again. -/
theorem getLatest_change_iff {kf : KeyFile} {key : Entry} (h : kf.getLatest = some key)
    (h0 : key.version = 0) (step : KeyChange) :
    (kf.change step).getLatest = some key ↔ step = .add key := by
  obtain ⟨-, hle⟩ := getLatest_eq_some.mp h
  cases step with
  | generate draw =>
    obtain ⟨key', hlatest, hv⟩ := getLatest_generate h (by rw [h0]; decide) draw
    refine iff_of_false (fun hkey => ?_) (by simp)
    rw [change, hlatest] at hkey
    cases hkey
    rw [h0] at hv
    exact absurd hv (by decide)
  | add key' =>
    rw [change, getLatest_eq_some, KeyChange.add.injEq]
    constructor
    · rintro ⟨hget, hmax⟩
      -- a version above 0 would have become the latest
      have hv : key'.version = key.version := by
        have hk := hmax key'.version (by rw [get_add_self]; rfl)
        rw [h0] at hk ⊢
        exact le_antisymm hk (UInt32.le_iff_toNat_le.mpr (Nat.zero_le _))
      rw [← hv, get_add_self] at hget
      exact Option.some.inj hget
    · rintro rfl
      refine ⟨get_add_self _ _, fun v hs => ?_⟩
      rw [get_add] at hs
      split_ifs at hs with he
      · exact he.ge
      · exact hle v hs

/-- Version 0 is the latest at every stage only if every step adds its entry again. -/
theorem getLatest_stages_iff {kf : KeyFile} {key : Entry} (h : kf.getLatest = some key)
    (h0 : key.version = 0) (steps : List KeyChange) :
    (∀ stage, stage <+: steps → (kf.changes stage).getLatest = some key) ↔
      ∀ step ∈ steps, step = .add key := by
  induction steps generalizing kf with
  | nil =>
    simp only [List.prefix_nil, forall_eq, List.not_mem_nil, false_imp_iff, implies_true, iff_true]
    exact h
  | cons step steps ih =>
    rw [List.forall_mem_cons]
    constructor
    · intro hall
      have hstep := hall [step] (List.cons_prefix_cons.mpr ⟨rfl, List.nil_prefix⟩)
      refine ⟨(getLatest_change_iff h h0 step).mp hstep, (ih hstep).mp fun stage hs => ?_⟩
      exact hall (step :: stage) (List.cons_prefix_cons.mpr ⟨rfl, hs⟩)
    · rintro ⟨hstep, hrest⟩ stage hs
      cases stage with
      | nil => exact h
      | cons step' stage =>
        obtain ⟨rfl, hs'⟩ := List.cons_prefix_cons.mp hs
        exact (ih ((getLatest_change_iff h h0 step').mpr hstep)).mpr hrest stage hs'

/-- The two choices agree exactly for a key that has version 0 as its latest and keeps it. -/
theorem versionsAgree_iff {kf : KeyFile} (h : kf.isEmpty = false) (steps : List KeyChange) :
    kf.VersionsAgree steps ↔
      ∃ key, kf.getLatest = some key ∧ key.version = 0 ∧ ∀ step ∈ steps, step = .add key := by
  obtain ⟨key, hkey⟩ := exists_getLatest h
  constructor
  · intro hagree
    have hfirst := hagree.decrypts [] List.nil_prefix
    rw [show (kf.changes []).getLatest = some key from hkey] at hfirst
    have h0 : key.version = 0 := version_of_get hfirst
    refine ⟨key, hkey, h0, (getLatest_stages_iff hkey h0 steps).mp fun stage hs => ?_⟩
    rw [← hagree.decrypts stage hs, hfirst]
  · rintro ⟨key', hkey', h0, hsteps⟩
    have hstages := (getLatest_stages_iff hkey' h0 steps).mpr hsteps
    have hlast := hstages steps (List.prefix_refl _)
    refine ⟨fun stage hs => ?_, fun last hl => ?_⟩
    · rw [hstages stage hs, ← show key'.version = decryptKeyVersion from h0]
      exact (getLatest_eq_some.mp hlast).1
    · rw [hlast] at hl
      cases hl
      exact h0

/-- The new key file has one entry more, which is newer than all others and is taken for the
latest. -/
def AddsNewest (kf kf' : KeyFile) : Prop :=
  (∀ version key, kf.get version = some key → kf'.get version = some key) ∧
    ∃ key, kf.get key.version = none ∧
      (∀ version, kf'.get version = if key.version = version then some key else kf.get version) ∧
      (∀ version, (kf.get version).isSome = true → version < key.version) ∧ kf'.getLatest = some key

/-- When `generate` returns, it has put an entry under the version after the latest one. -/
private theorem generate_ok {kf kf' : KeyFile} {draw : Draw} (h : kf.generate draw = (kf', .ok ())) :
    ∃ key, kf' = kf.add key ∧ ((∀ version, kf.get version = none) ∧ key.version = 0 ∨
      ∃ latest, kf.getLatest = some latest ∧ key.version = latest.version + 1) := by
  obtain rfl : (kf.generate draw).1 = kf' := congrArg Prod.fst h
  unfold generate
  cases hl : kf.latest with
  | error e => exact ⟨_, rfl, .inl ⟨latest_eq_error hl, Entry.generate_version _ _ _⟩⟩
  | ok version =>
    obtain ⟨latest, hget, hle⟩ := latest_eq_ok.mp hl
    obtain rfl := version_of_get hget
    exact ⟨_, rfl, .inr ⟨latest, getLatest_eq_some.mpr ⟨hget, hle⟩, Entry.generate_version _ _ _⟩⟩

/-- The entry that `generate` adds is a new and the newest one as long as the last of all
versions is not in use: behind that one the versions start again with 0. -/
theorem generate_adds_newest_iff {kf kf' : KeyFile} {draw : Draw} (h : kf.generate draw = (kf', .ok ())) :
    kf.AddsNewest kf' ↔ kf.get 0xffffffff = none := by
  obtain ⟨key, rfl, hversion⟩ := generate_ok h
  constructor
  · rintro ⟨-, key', -, -, hnewest, -⟩
    by_contra hlast
    have hlt := hnewest 0xffffffff (Option.isSome_iff_ne_none.mpr hlast)
    exact absurd (UInt32.lt_iff_toNat_lt.mp hlt) (not_lt.mpr (Nat.le_of_lt_succ key'.version.toNat_lt))
  · intro hlast
    have hnewest (version : UInt32) (hv : (kf.get version).isSome = true) : version < key.version := by
      rcases hversion with ⟨hnone, -⟩ | ⟨latest, hlatest, hnext⟩
      · rw [hnone] at hv
        cases hv
      · obtain ⟨hget, hle⟩ := getLatest_eq_some.mp hlatest
        -- the latest version is not the last one, so there is one after it
        have hne : latest.version ≠ 0xffffffff := fun he => by rw [he, hlast] at hget; cases hget
        have hadd := UInt32.toNat_add latest.version 1
        have hlt := latest.version.toNat_lt
        have hne' : latest.version.toNat ≠ 2 ^ 32 - 1 := fun he => hne (UInt32.toNat_inj.mp he)
        refine lt_of_le_of_lt (hle version hv) ?_
        rw [hnext, UInt32.lt_iff_toNat_lt, hadd]
        simp only [UInt32.toNat_one] at *
        omega
    have hnew : kf.get key.version = none := by
      by_contra hold
      exact absurd (hnewest _ (Option.isSome_iff_ne_none.mpr hold)) (lt_irrefl _)
    refine ⟨fun version e he => ?_, key, hnew, get_add kf key, hnewest, ?_⟩
    · rw [get_add, if_neg, he]
      rintro rfl
      rw [hnew] at he
      cases he
    · refine getLatest_eq_some.mpr ⟨get_add_self kf key, fun version hv => ?_⟩
      rw [get_add] at hv
      split_ifs at hv with hk
      · exact hk.ge
      · exact (hnewest version hv).le

/-- Numbers to make a key of. -/
def zeroDraw : Draw := ⟨some Buffer.zero, some Buffer.zero⟩

/-- The key of a fresh repository, to which it is added again. -/
theorem versionsAgree_added : (empty.generate zeroDraw).1.VersionsAgree [.add Entry.zero] :=
  (versionsAgree_iff (by decide) [.add Entry.zero]).mpr ⟨Entry.zero, by decide, rfl, by simp⟩

/-- The key of a fresh repository, renewed once. -/
theorem renewed_key_disagrees : ¬ (empty.generate zeroDraw).1.VersionsAgree [.generate zeroDraw] := by
  intro h
  have hfirst : (empty.generate zeroDraw).1.getLatest = some Entry.zero := by decide
  obtain ⟨key, hkey, hv⟩ := getLatest_generate hfirst (by decide) zeroDraw
  have hget := (h.decrypts _ (List.prefix_refl _)).trans hkey
  rw [version_of_get hget] at hv
  exact absurd hv (by decide)

/-- Other keys than those that `zeroDraw` makes. -/
def oldEntry : Entry := ⟨0, Buffer.ofBytes [1], Buffer.ofBytes [1]⟩

theorem generate_adds_newest_renewed : (empty.add oldEntry).AddsNewest ((empty.add oldEntry).generate zeroDraw).1 :=
  (@generate_adds_newest_iff _ _ zeroDraw (Prod.ext rfl (by decide +kernel))).mpr (by decide +kernel)

/-- The first and the last of all versions are in use: the new key takes the place of the
first one. -/
theorem generate_replaces_oldest : ∃ (b : Bytes) (kf kf' : KeyFile), loadBytes b = .ok kf ∧
    kf.generate zeroDraw = (kf', .ok ()) ∧ kf.get 0 = some oldEntry ∧ kf'.get 0 = some Entry.zero ∧
    ¬ kf.AddsNewest kf' := by
  let kf := (empty.add oldEntry).add ⟨0xffffffff, Buffer.zero, Buffer.zero⟩
  have hgen : kf.generate zeroDraw = (kf.add Entry.zero, .ok ()) := by decide +kernel
  refine ⟨kf.store, kf, kf.add Entry.zero, loadBytes_store (.inl rfl), hgen, by decide +kernel, by decide +kernel, ?_⟩
  rintro ⟨hkept, -⟩
  have hold := hkept 0 oldEntry (by decide +kernel)
  exact absurd hold (by decide +kernel)

end KeyFile
end GitCrypt
