import GitCrypt.Key
import GitCrypt.Library.Replay

/-! The entries that were added to a `Key_file`. Its operations fill the map by different routes, and
it has the last entry of each version. -/
namespace GitCrypt
open Iostream DescMap
namespace KeyFile

/-- The fields of `Key_file`, where nothing says which entries are under which keys. -/
structure Fields where
  entries : DescMap UInt32 Entry
  keyName : Bytes

namespace Fields

def empty : Fields := ⟨.empty, []⟩

def get (kf : Fields) (version : UInt32) : Option Entry := kf.entries.find version

def latest (kf : Fields) : Except Exception UInt32 :=
  match kf.entries.first? with
  | none => .error (.invalidArgument "Key_file::latest")
  | some (version, _) => .ok version

def getLatest (kf : Fields) : Option Entry :=
  match kf.latest with
  | .error _ => none
  | .ok version => kf.get version

def add (kf : Fields) (e : Entry) : Fields := { kf with entries := kf.entries.insert e.version e }

/-- The entry that `entries[version]` refers to, default-constructed when absent. -/
def slot (kf : Fields) (version : UInt32) : Entry := (kf.get version).getD Entry.zero

/-- The entry is changed in place: what the load leaves of it stays in the map if it throws. -/
def loadLegacy (kf : Fields) (input : IStream) : Fields × Except KeyError IStream :=
  let (e, res) := (kf.slot 0).loadLegacy 0 input
  ({ kf with entries := kf.entries.insert 0 e }, res)

def generate (kf : Fields) (draw : Draw) : Fields × Except Exception Unit :=
  let version := match kf.latest with
    | .error _ => 0
    | .ok version => version + 1
  let (e, res) := (kf.slot version).generate version draw
  ({ kf with entries := kf.entries.insert version e }, res)

def loadHeader (kf : Fields) (input : IStream) : Fields × Except KeyError IStream :=
  let (keyName, res) := headerFormat.readFields kf.keyName input
  ({ kf with keyName }, res)

def loadEntries (kf : Fields) (input : IStream) : Fields × Except KeyError IStream :=
  match input.peek.1 with
  | none => (kf, .ok input.peek.2)
  | some _ =>
    match _h : Entry.zero.load input.peek.2 with
    | (_, .error e) => (kf, .error e)
    | (entry, .ok input) => loadEntries (kf.add entry) input
termination_by input.rest.length
decreasing_by
  have h := Entry.format.readFields_shorter _h
  rwa [peek_rest] at h

def load (kf : Fields) (input : IStream) : Fields × Except KeyError IStream :=
  let (preamble, input) := input.read 16
  if input.gcount ≠ 16 then (kf, .error .malformed)
  else if preamble.take 12 ≠ preambleMagic then (kf, .error .malformed)
  else if loadBe32 (preamble.drop 12) ≠ formatVersion then (kf, .error .incompatible)
  else match kf.loadHeader input with
    | (kf, .error e) => (kf, .error e)
    | (kf, .ok input) => kf.loadEntries input

end Fields

/-- The calls that put entries into a key file. -/
inductive Call where
  | add (e : Entry)
  | load (input : IStream)
  | loadLegacy (input : IStream)
  | generate (draw : Draw)

/-- The key file after a call, whether it returns or throws. -/
def Fields.perform (kf : Fields) : Call → Fields
  | .add e => kf.add e
  | .load input => (kf.load input).1
  | .loadLegacy input => (kf.loadLegacy input).1
  | .generate draw => (kf.generate draw).1

/-- The key file after calls on an empty one. -/
def performed (calls : List Call) : Fields := calls.foldl Fields.perform .empty

/-! ### What the calls add -/

/-- The entries that are read in full, before the end of the input or one that cannot be read. -/
def readEntries (input : IStream) : List Entry :=
  match input.peek.1 with
  | none => []
  | some _ =>
    match _h : Entry.zero.load input.peek.2 with
    | (_, .error _) => []
    | (entry, .ok input) => entry :: readEntries input
termination_by input.rest.length
decreasing_by
  have h := Entry.format.readFields_shorter _h
  rwa [peek_rest] at h

/-- Those of a key file whose header can be read. -/
def loadedEntries (input : IStream) : List Entry :=
  let (preamble, input) := input.read 16
  if input.gcount ≠ 16 ∨ preamble.take 12 ≠ preambleMagic ∨
      loadBe32 (preamble.drop 12) ≠ formatVersion then []
  else match headerFormat.readFields [] input with
    | (_, .error _) => []
    | (_, .ok input) => readEntries input

/-- The entry that was added last with a version. -/
def lastAdded (added : List Entry) (version : UInt32) : Option Entry := lastWith Entry.version added version

/-- The version after the greatest of those added. -/
def nextVersion (added : List Entry) : UInt32 :=
  match greatestKey Entry.version added with
  | none => 0
  | some version => version + 1

/-- What a call adds after the entries added before it. One that is filled in place counts as added
with what the call leaves in it. -/
def Call.adds (added : List Entry) : Call → List Entry
  | .add e => [e]
  | .load input => loadedEntries input
  | .loadLegacy input => [(((lastAdded added 0).getD Entry.zero).loadLegacy 0 input).1]
  | .generate draw =>
    let version := nextVersion added
    [(((lastAdded added version).getD Entry.zero).generate version draw).1]

/-- All that the calls add, in their order. -/
def added (calls : List Call) : List Entry := calls.foldl (fun before call => before ++ call.adds before) []

/-! ### What is in the map -/

/-- An entry is given its version before its keys. -/
theorem loadLegacy_version (e : Entry) (version : UInt32) (input : IStream) :
    (e.loadLegacy version input).1.version = version := by
  unfold Entry.loadLegacy
  dsimp only
  split_ifs
  · rfl
  · rfl
  · split <;> rfl

section
variable {input rest : IStream} {entry : Entry} {b : UInt8} {e : KeyError}

private theorem readEntries_end (hpeek : input.peek.1 = none) : readEntries input = [] := by
  rw [readEntries, hpeek]

private theorem readEntries_error (hload : Entry.zero.load input.peek.2 = (entry, .error e)) :
    readEntries input = [] := by
  rw [readEntries]
  cases input.peek.1 with
  | none => rfl
  | some b =>
    dsimp only
    split
    · rfl
    · rename_i hload'
      rw [hload] at hload'
      cases hload'

private theorem readEntries_next (hpeek : input.peek.1 = some b)
    (hload : Entry.zero.load input.peek.2 = (entry, .ok rest)) :
    readEntries input = entry :: readEntries rest := by
  rw [readEntries, hpeek]
  dsimp only
  split
  · rename_i hload'
    rw [hload] at hload'
    cases hload'
  · rename_i hload'
    rw [hload] at hload'
    cases hload'
    rfl

end

namespace Fields
variable {kf : Fields} {before : List Entry}

private theorem loadEntries_entries (kf : Fields) (input : IStream) :
    (kf.loadEntries input).1.entries = kf.entries.putAll Entry.version (readEntries input) := by
  fun_induction loadEntries kf input with
  | case1 kf input hpeek =>
    rw [readEntries_end hpeek]
    rfl
  | case2 kf input b hpeek entry e hload =>
    rw [readEntries_error hload]
    rfl
  | case3 kf input b hpeek entry rest hload ih =>
    rw [ih, readEntries_next hpeek hload]
    rfl

private theorem load_entries (kf : Fields) (input : IStream) :
    (kf.load input).1.entries = kf.entries.putAll Entry.version (loadedEntries input) := by
  unfold load loadedEntries loadHeader
  generalize input.read 16 = preamble
  obtain ⟨preamble, input⟩ := preamble
  dsimp only
  by_cases hgcount : input.gcount ≠ 16
  · rw [if_pos hgcount, if_pos (.inl hgcount)]
    rfl
  · rw [if_neg hgcount]
    by_cases hmagic : preamble.take 12 ≠ preambleMagic
    · rw [if_pos hmagic, if_pos (.inr (.inl hmagic))]
      rfl
    · rw [if_neg hmagic]
      by_cases hversion : loadBe32 (preamble.drop 12) ≠ formatVersion
      · rw [if_pos hversion, if_pos (.inr (.inr hversion))]
        rfl
      · rw [if_neg hversion, if_neg (by rintro (h | h | h) <;> contradiction)]
        have hstream := headerFormat.readFields_stream kf.keyName [] input
        generalize headerFormat.readFields kf.keyName input = header at hstream ⊢
        generalize headerFormat.readFields [] input = header' at hstream ⊢
        obtain ⟨keyName, stream⟩ := header
        obtain ⟨keyName', stream'⟩ := header'
        obtain rfl : stream = stream' := hstream
        cases stream with
        | error e => rfl
        | ok rest => exact loadEntries_entries _ rest

/-- The latest version is the greatest of those added before. -/
private theorem latest_eq (h : Replays Entry.version kf.entries before) :
    kf.latest.toOption = greatestKey Entry.version before := by
  unfold latest
  rw [← h.first?_key]
  rcases kf.entries.first? with _ | ⟨version, e⟩ <;> rfl

theorem slot_eq (h : Replays Entry.version kf.entries before) (version : UInt32) :
    kf.slot version = (lastAdded before version).getD Entry.zero := by
  unfold slot get lastAdded
  rw [h version]

private theorem generate_entries (h : Replays Entry.version kf.entries before) (draw : Draw) :
    (kf.generate draw).1.entries = kf.entries.insert (nextVersion before)
      ((kf.slot (nextVersion before)).generate (nextVersion before) draw).1 := by
  unfold generate nextVersion
  rw [← latest_eq h]
  cases kf.latest <;> rfl

/-- A call puts into the map what it adds. -/
private theorem perform_replays (h : Replays Entry.version kf.entries before) (call : Call) :
    Replays Entry.version (kf.perform call).entries (before ++ call.adds before) := by
  cases call with
  | add e => exact h.insert rfl
  | load input =>
    rw [perform, load_entries]
    exact h.putAll _
  | loadLegacy input =>
    rw [Call.adds, ← slot_eq h]
    exact h.insert (loadLegacy_version ..)
  | generate draw =>
    rw [Call.adds, ← slot_eq h, perform, generate_entries h]
    exact h.insert (Entry.generate_version ..)

theorem getLatest_eq_some (h : Replays Entry.version kf.entries before) {e : Entry} :
    kf.getLatest = some e ↔ lastAdded before e.version = some e ∧ ∀ e' ∈ before, e'.version ≤ e.version := by
  have hfirst := @Replays.first?_eq_some _ _ _ _ _ _ e.version e h
  unfold getLatest latest get lastAdded
  rw [← hfirst]
  rcases hentries : kf.entries.first? with _ | ⟨version, e'⟩
  · exact ⟨nofun, nofun⟩
  · have hlast := h.first?_eq_some.mp hentries
    dsimp only
    rw [h version, hlast.1]
    have hversion := (lastWith_key hlast.1).2
    constructor
    · rintro ⟨⟩
      rw [hversion]
    · rintro ⟨⟩
      rfl

theorem getLatest_eq_none (h : Replays Entry.version kf.entries before) : kf.getLatest = none ↔ before = [] := by
  rw [← h.first?_eq_none]
  unfold getLatest latest get
  rcases hentries : kf.entries.first? with _ | ⟨version, e⟩
  · exact ⟨fun _ => rfl, fun _ => rfl⟩
  · dsimp only
    rw [h version, (h.first?_eq_some.mp hentries).1]
    exact ⟨nofun, nofun⟩

end Fields

private theorem performed_replays (calls : List Call) :
    Replays Entry.version (performed calls).entries (added calls) := by
  induction calls using List.reverseRecOn with
  | nil => exact .empty
  | append_singleton calls call ih =>
    unfold performed added
    rw [List.foldl_concat, List.foldl_concat]
    exact Fields.perform_replays ih call

/-- After any calls every entry is under its own version, `get` has the last that was added with a
version and none where none was, and `get_latest` the one with the greatest version. -/
theorem performed_has_lastAdded (calls : List Call) :
    (∀ p ∈ (performed calls).entries.toList, p.2.version = p.1) ∧
      (∀ version, (performed calls).get version = lastAdded (added calls) version ∧
        (((performed calls).get version).isSome ↔ ∃ e ∈ added calls, e.version = version)) ∧
      (∀ e, (performed calls).getLatest = some e ↔
        lastAdded (added calls) e.version = some e ∧ ∀ e' ∈ added calls, e'.version ≤ e.version) ∧
      ((performed calls).getLatest = none ↔ added calls = []) := by
  have h := performed_replays calls
  exact ⟨h.keyed, fun version => ⟨h version, h.isSome_find⟩, fun e => Fields.getLatest_eq_some h,
    Fields.getLatest_eq_none h⟩

/-! ### Key files that keep their entries under their versions -/

/-- What the source has of a key file. -/
def fields (kf : KeyFile) : Fields := ⟨kf.entries, kf.keyName⟩

def perform (kf : KeyFile) : Call → KeyFile
  | .add e => kf.add e
  | .load input => (kf.load input).1
  | .loadLegacy input => (kf.loadLegacy input).1
  | .generate draw => (kf.generate draw).1

section
variable {kf : Fields} {input rest : IStream} {entry : Entry} {b : UInt8} {e : KeyError}

theorem Fields.loadEntries_end (hpeek : input.peek.1 = none) : kf.loadEntries input = (kf, .ok input.peek.2) := by
  rw [loadEntries, hpeek]

theorem Fields.loadEntries_error (hpeek : input.peek.1 = some b)
    (hload : Entry.zero.load input.peek.2 = (entry, .error e)) : kf.loadEntries input = (kf, .error e) := by
  rw [loadEntries, hpeek]
  dsimp only
  split
  · rename_i hload'
    rw [hload] at hload'
    cases hload'
    rfl
  · rename_i hload'
    rw [hload] at hload'
    cases hload'

theorem Fields.loadEntries_next (hpeek : input.peek.1 = some b)
    (hload : Entry.zero.load input.peek.2 = (entry, .ok rest)) :
    kf.loadEntries input = (kf.add entry).loadEntries rest := by
  rw [loadEntries, hpeek]
  dsimp only
  split
  · rename_i hload'
    rw [hload] at hload'
    cases hload'
  · rename_i hload'
    rw [hload] at hload'
    cases hload'
    rfl

end

private theorem fields_loadEntries (kf : KeyFile) (input : IStream) :
    kf.fields.loadEntries input = ((kf.loadEntries input).1.fields, (kf.loadEntries input).2) := by
  fun_induction KeyFile.loadEntries kf input with
  | case1 kf input hpeek => exact Fields.loadEntries_end hpeek
  | case2 kf input b hpeek entry e hload => exact Fields.loadEntries_error hpeek hload
  | case3 kf input b hpeek entry rest hload ih =>
    rw [Fields.loadEntries_next hpeek hload]
    exact ih

private theorem fields_load (kf : KeyFile) (input : IStream) :
    kf.fields.load input = ((kf.load input).1.fields, (kf.load input).2) := by
  have hheader (input : IStream) :
      kf.fields.loadHeader input = ((kf.loadHeader input).1.fields, (kf.loadHeader input).2) := rfl
  unfold Fields.load KeyFile.load
  generalize input.read 16 = preamble
  obtain ⟨preamble, input⟩ := preamble
  dsimp only
  split_ifs
  · rfl
  · rfl
  · rfl
  · rw [hheader]
    rcases kf.loadHeader input with ⟨kf', e | rest⟩
    · rfl
    · exact fields_loadEntries kf' rest

theorem fields_insert (kf : KeyFile) {e : Entry} {version : UInt32} (h : e.version = version) :
    (⟨kf.entries.insert version e, kf.keyName⟩ : Fields) = (kf.add e).fields := by
  subst h
  rfl

private theorem fields_loadLegacy (kf : KeyFile) (input : IStream) :
    kf.fields.loadLegacy input = ((kf.loadLegacy input).1.fields, (kf.loadLegacy input).2) := by
  have hversion := loadLegacy_version (kf.slot 0) 0 input
  have hslot : kf.fields.slot 0 = kf.slot 0 := rfl
  unfold Fields.loadLegacy KeyFile.loadLegacy
  rw [hslot]
  generalize (kf.slot 0).loadLegacy 0 input = filled at hversion ⊢
  exact congrArg (·, filled.2) (fields_insert kf hversion)

private theorem fields_generate (kf : KeyFile) (draw : Draw) :
    kf.fields.generate draw = ((kf.generate draw).1.fields, (kf.generate draw).2) := by
  have hlatest : kf.fields.latest = kf.latest := rfl
  have hslot (version : UInt32) : kf.fields.slot version = kf.slot version := rfl
  have hfill (version : UInt32) :
      (⟨kf.entries.insert version ((kf.slot version).generate version draw).1, kf.keyName⟩ : Fields) =
        (kf.add ((kf.slot version).generate version draw).1).fields :=
    fields_insert kf (Entry.generate_version ..)
  unfold Fields.generate KeyFile.generate
  rw [hlatest]
  cases kf.latest with
  | error e => exact congrArg (·, _) (hfill 0)
  | ok version => exact congrArg (·, _) (hfill (version + 1))

private theorem fields_perform (kf : KeyFile) (call : Call) : kf.fields.perform call = (kf.perform call).fields := by
  cases call with
  | add e => rfl
  | load input => exact congrArg Prod.fst (fields_load kf input)
  | loadLegacy input => exact congrArg Prod.fst (fields_loadLegacy kf input)
  | generate draw => exact congrArg Prod.fst (fields_generate kf draw)

/-- Keeping the entries under their versions takes nothing from what the calls do. -/
theorem performed_fields (calls : List Call) : performed calls = (calls.foldl perform empty).fields := by
  induction calls using List.reverseRecOn with
  | nil => rfl
  | append_singleton calls call ih =>
    unfold performed at ih ⊢
    rw [List.foldl_concat, List.foldl_concat, ih, fields_perform]

end KeyFile
end GitCrypt
