import GitCrypt.Staging

/-! What `status -f` does to the index: which files it stages, and when it reports success. -/
namespace GitCrypt
open Iostream IStream

/-! ### Steps -/

variable {env : Env} {genv : GitEnv} {attributes : Attributes} {g g' g'' : GitState}

/-- What is done in the world leaves the index alone. -/
theorem onFst_triple {α : Type} {m : Action α} {Q : α → Prop} (P : GitState → Prop)
    (h : Returns (fun _ => True) m fun a _ => Q a) :
    Triple (fun s => P s.2) (Prog.onFst m) (fun a s => P s.2 ∧ Q a) fun _ _ => True :=
  (Triple.onFst h P).weaken (fun _ hs => ⟨trivial, hs⟩) (fun _ _ hs => ⟨hs.2, hs.1⟩) fun _ _ _ => trivial

theorem onFst_keeps {α : Type} (P : GitState → Prop) (m : Action α) :
    Triple (fun s => P s.2) (Prog.onFst m) (fun _ s => P s.2) fun _ _ => True := by
  have hany : Returns (fun _ => True) m fun _ _ => True := by
    intro w _
    rcases m w with ⟨e | a, w'⟩
    · trivial
    · trivial
  exact (onFst_triple P hany).post fun _ _ => And.left

theorem requireSuccess_onFst (P : GitState → Prop) (status : Nat) (e : Exception) :
    Triple (fun s => P s.2) (Prog.onFst (requireSuccess status e)) (fun _ s => P s.2 ∧ status = 0)
      fun _ _ => True :=
  onFst_triple P ((requireSuccess_returns _ status e).post fun _ _ h => h.2)

/-- A subprocess that only looks at the index, run in a world in `P`. -/
theorem execIndexCommand_query {command : IndexCommand} {P : World → Prop} (hadded : command.added = [])
    (hrun : ∀ w, (command.run genv w g.toGit).2.2 = g.toGit) {Q : Bytes → Prop}
    (hout : ∀ w, P w → (command.run genv w g.toGit).1 = 0 → Q (command.run genv w g.toGit).2.1) :
    Triple (fun s => P s.1 ∧ s.2 = g) (execIndexCommand env genv command)
      (fun out s => s.2 = g ∧ (out.1 = 0 → Q out.2)) fun _ _ => True := by
  rintro ⟨w, g⟩ ⟨hw, rfl⟩
  unfold execIndexCommand
  dsimp only
  rw [hadded, List.append_nil]
  by_cases hfails : env.fails w.ops = true
  · rw [if_pos hfails]
    exact ⟨rfl, fun h => absurd h (by decide)⟩
  · rw [if_neg hfails]
    refine ⟨?_, hout w hw⟩
    rw [hrun w]

theorem checkIfObjectIsEncrypted_spec (objectId : Bytes) :
    Triple (fun s => s.2 = g) (checkIfObjectIsEncrypted env genv objectId)
      (fun b s => s.2 = g ∧ ∃ blob, g.blobs objectId = some blob ∧ b = checkIfBlobIsEncrypted blob)
      fun _ _ => True := by
  refine .bind ((execIndexCommand_query (P := fun _ => True) (Q := fun output => g.blobs objectId = some output) rfl
    (fun w => ?_) fun w _ hs => ?_).pre fun s hs => ⟨trivial, hs⟩) ?_
  · simp only [IndexCommand.run]
    cases g.blobs objectId <;> rfl
  · simp only [IndexCommand.run] at hs ⊢
    cases hblob : g.blobs objectId with
    | none =>
      rw [hblob] at hs
      cases hs
    | some blob => rfl
  · rintro ⟨status, output⟩
    refine .assuming fun hout => .bind (requireSuccess_onFst (· = g) status _) fun _ => .assuming fun hs => ?_
    exact .pure fun s hg => ⟨hg, output, hout hs, rfl⟩

/-- The blobs of a path are these, none or one. -/
def Git.Holds (g : Git) (name : Bytes) (blob : Option Bytes) : Prop :=
  (g.index.at name).map (fun e => g.blobs e.objectId) = blob.toList.map some

/-- Whether the index has a blob for a path that is recognised as encrypted. -/
def Git.isEncrypted (g : Git) (name : Bytes) : Bool :=
  (g.index.at name).any fun e => (g.blobs e.objectId).any checkIfBlobIsEncrypted

theorem Git.Holds.isEncrypted {g : Git} {name : Bytes} {blob : Option Bytes} (h : g.Holds name blob) :
    g.isEncrypted name = blob.any checkIfBlobIsEncrypted := by
  have hany : g.isEncrypted name =
      ((g.index.at name).map fun e => g.blobs e.objectId).any (·.any checkIfBlobIsEncrypted) := by
    rw [List.any_map]
    rfl
  rw [hany, h]
  cases blob <;> simp

/-- The object `git ls-files -sz` prints of an entry. -/
private theorem extractWord_objectId (e : IndexEntry) :
    (outputStream e.line).peek.1 ≠ none ∧
      (outputStream e.line).peek.2.extractWord.2.extractWord.1 = e.objectId := by
  have hmode := extractWord_word (isWord_octal e.mode) (show isSpace 32 = true from rfl)
    (e.objectId ++ 32 :: (e.stage ++ 9 :: (e.name ++ [0])))
  have hobject := extractWord_sep (show isSpace 32 = true from rfl) e.objectId_isWord
    (show isSpace 32 = true from rfl) (e.stage ++ 9 :: (e.name ++ [0]))
  have hne : e.line ≠ [] := by simp [IndexEntry.line]
  have hstream : outputStream e.line = ofBytes e.line := by
    rw [outputStream, List.isEmpty_eq_false_iff.mpr hne]
    rfl
  have hpeek : (ofBytes e.line).peek.2 = ofBytes e.line := by
    rw [peek_of_cons rfl hne]
    rfl
  rw [hstream, hpeek]
  refine ⟨fun h => hne ((peek_none_iff rfl).mp h), ?_⟩
  unfold IndexEntry.line
  rw [hmode, hobject]

theorem checkIfFileIsEncrypted_spec {filename : Bytes} (hsingle : (g.index.at filename).length ≤ 1) :
    Triple (fun s => s.2 = g) (checkIfFileIsEncrypted env genv filename)
      (fun b s => s.2 = g ∧ ∃ blob, g.Holds filename blob ∧ b = blob.any checkIfBlobIsEncrypted)
      fun _ _ => True := by
  refine .bind ((execIndexCommand_query (P := fun _ => True)
    (Q := fun output => output = (g.index.at filename).flatMap (·.line)) rfl (fun _ => rfl) fun _ _ _ => rfl).pre
    fun s hs => ⟨trivial, hs⟩) ?_
  rintro ⟨status, output⟩
  refine .assuming fun hout => .bind (requireSuccess_onFst (· = g) status _) fun _ => .assuming fun hs => ?_
  obtain rfl : output = _ := hout hs
  rcases hat : g.index.at filename with _ | ⟨e, _ | ⟨e', entries⟩⟩
  · refine .ite (fun _ => .pure fun s hg => ⟨hg, none, ?_, rfl⟩) fun h => absurd rfl h
    rw [Git.Holds, hat]
    rfl
  · obtain ⟨hpeek, hobject⟩ := extractWord_objectId e
    rw [List.flatMap_singleton]
    generalize outputStream e.line = stream at hpeek hobject
    change Triple _ (if stream.peek.1 = none then Pure.pure false else
      checkIfObjectIsEncrypted env genv stream.peek.2.extractWord.2.extractWord.1) _ _
    rw [if_neg hpeek, hobject]
    refine (checkIfObjectIsEncrypted_spec e.objectId).post ?_
    rintro b s ⟨hg, blob, hblob, hb⟩
    refine ⟨hg, some blob, ?_, hb⟩
    rw [Git.Holds, hat, List.map_singleton, hblob]
    rfl
  · rw [hat] at hsingle
    exact absurd hsingle (by simp)

/-- From one state to another only these files have been staged. -/
structure StagesOnly (names : Bytes → Prop) (g g' : GitState) : Prop where
  others : ∀ name, ¬ names name → g'.index.at name = g.index.at name
  blobs : ∀ objectId blob, g.blobs objectId = some blob → g'.blobs objectId = some blob
  added : ∀ filename ∈ g'.added, filename ∈ g.added ∨ names filename

section
variable {names names' : Bytes → Prop}

theorem StagesOnly.refl (names : Bytes → Prop) (g : GitState) : StagesOnly names g g :=
  ⟨fun _ _ => rfl, fun _ _ => id, fun _ => .inl⟩

theorem StagesOnly.mono (h : StagesOnly names g g') (hsub : ∀ name, names name → names' name) :
    StagesOnly names' g g' :=
  ⟨fun name hname => h.others name fun hn => hname (hsub name hn), h.blobs,
    fun filename hf => (h.added filename hf).imp_right (hsub filename)⟩

theorem StagesOnly.trans (h : StagesOnly names g g') (h' : StagesOnly names g' g'') : StagesOnly names g g'' where
  others name hname := (h'.others name hname).trans (h.others name hname)
  blobs objectId blob hblob := h'.blobs objectId blob (h.blobs objectId blob hblob)
  added filename hf := (h'.added filename hf).elim (h.added filename) .inr

/-- What the index holds for another path it still holds. -/
theorem StagesOnly.holds (h : StagesOnly names g g') {name : Bytes} (hname : ¬ names name) {blob : Option Bytes}
    (hblob : g.Holds name blob) : g'.Holds name blob := by
  unfold Git.Holds at hblob ⊢
  rw [h.others name hname]
  rcases hat : g.index.at name with _ | ⟨e, _ | ⟨e', entries⟩⟩ <;> rw [hat] at hblob
  · exact hblob
  · cases blob with
    | none => cases hblob
    | some blob =>
      have he : g.blobs e.objectId = some blob := by simpa using hblob
      rw [List.map_singleton, h.blobs e.objectId blob he]
      rfl
  · cases blob <;> simp at hblob

end

private theorem execIndexCommand_add (filename : Bytes) :
    Triple (fun s => s.2 = g) (execIndexCommand env genv (.add filename))
      (fun out s => StagesOnly (· = filename) g s.2 ∧ (out.1 = 0 → (s.2.index.at filename).length ≤ 1))
      fun _ _ => True := by
  rintro ⟨w, g⟩ rfl
  have hadded : ∀ name ∈ g.added ++ [filename], name ∈ g.added ∨ name = filename := by simp
  unfold execIndexCommand
  by_cases hfails : env.fails w.ops = true
  · rw [if_pos hfails]
    exact ⟨⟨fun _ _ => rfl, fun _ _ => id, hadded⟩, fun h => absurd h (by decide)⟩
  · rw [if_neg hfails]
    exact ⟨⟨genv.add.others w g.toGit filename, genv.add.blobs w g.toGit filename, hadded⟩,
      genv.add.single w g.toGit filename⟩

/-- What a turn does to a file: it may have been staged, and it counts as an error unless its
blob is encrypted now. -/
structure Treated (g : GitState) (totals : StatusTotals) (name : Bytes) (totals' : StatusTotals) (g' : GitState) :
    Prop where
  stages : StagesOnly (· = name) g g'
  errors : ∃ blob, g'.Holds name blob ∧
    totals'.nbrOfFixErrors = if blob.any checkIfBlobIsEncrypted then totals.nbrOfFixErrors else totals.nbrOfFixErrors + 1
  attributeErrors : totals'.attributeErrors = totals.attributeErrors
  unencryptedBlobErrors : totals'.unencryptedBlobErrors = totals.unencryptedBlobErrors

theorem fixFile_spec {filename blob : Bytes} (hholds : g.Holds filename (some blob))
    (hplain : checkIfBlobIsEncrypted blob = false) (totals : StatusTotals) :
    Triple (fun s => s.2 = g) (fixFile env genv totals filename)
      (fun totals' s => Treated g totals filename totals' s.2) fun _ _ => True := by
  refine .bind (onFst_keeps (· = g) _) fun present => ?_
  cases present with
  | error e =>
    refine .bind (onFst_keeps (· = g) _) fun _ => .pure ?_
    rintro s rfl
    exact ⟨.refl _ _, ⟨some blob, hholds, by rw [Option.any_some, hplain]; rfl⟩, rfl, rfl⟩
  | ok _ =>
    refine .bind (onFst_keeps (· = g) _) fun _ => .bind (execIndexCommand_add filename) ?_
    rintro ⟨status, output⟩
    refine .of_start fun s₀ ⟨hstages, hsingle⟩ => ?_
    refine .bind ((requireSuccess_onFst (· = s₀.2) status _).pre fun s hs => hs ▸ rfl) fun _ => .assuming fun hs => ?_
    refine .bind (checkIfFileIsEncrypted_spec (hsingle hs)) fun encrypted => ?_
    refine .of_start fun s₁ ⟨hg, blob', hholds', hencrypted⟩ => .ite (fun h => ?_) fun h => ?_
    · refine .bind ((onFst_keeps (· = s₀.2) _).pre fun s hs => hs ▸ hg) fun _ => .pure fun s hs' => ?_
      rw [hs']
      exact ⟨hstages, ⟨blob', hholds', by rw [← hencrypted, if_pos h]⟩, rfl, rfl⟩
    · refine .bind ((onFst_keeps (· = s₀.2) _).pre fun s hs => hs ▸ hg) fun _ => .pure fun s hs' => ?_
      rw [hs']
      exact ⟨hstages, ⟨blob', hholds', by rw [← hencrypted, if_neg h]⟩, rfl, rfl⟩

/-! ### The loop -/

/-- The object of an entry, none for an untracked file. -/
def StatusEntry.objectId : StatusEntry → Bytes
  | untracked .. => []
  | tracked _ entry _ => entry.objectId

/-- A tracked file with a filter of git-crypt. -/
def StatusEntry.isMarked (attributes : Attributes) (e : StatusEntry) : Bool :=
  e.isTracked && isGitCryptFilter (attributes.filter e.name)

private theorem isGitCryptFilter_iff {filter : Bytes} :
    isGitCryptFilter filter = true ↔ filter = str "git-crypt" ∨ str "git-crypt-" <+: filter := by
  have hprefix : filter.take 10 = str "git-crypt-" ↔ str "git-crypt-" <+: filter := by
    rw [List.prefix_iff_eq_take]
    exact eq_comm
  rw [isGitCryptFilter, Bool.or_eq_true, decide_eq_true_eq, decide_eq_true_eq, hprefix]

/-- The values that count as none are no filters of git-crypt. -/
private theorem isGitCryptFilter_reported (value : Bytes) :
    isGitCryptFilter (reported value) = isGitCryptFilter value := by
  unfold reported
  split_ifs with h
  · rcases h with rfl | rfl | rfl <;> decide
  · rfl

theorem StatusEntry.name_noNul (e : StatusEntry) : (0 : UInt8) ∉ e.name := by
  cases e with
  | untracked name h => exact h
  | tracked tag e htag => exact e.name_noNul

/-- The index has the tracked files of a listing as they are listed. -/
def ListedIn (g : Git) (e : StatusEntry) : Prop :=
  ∀ tag entry htag, e = .tracked tag entry htag → g.index.at entry.name = [entry]

theorem blobIsUnencrypted_spec (objectId : Bytes) :
    Triple (fun s => s.2 = g) (blobIsUnencrypted env genv objectId)
      (fun b s => s.2 = g ∧ if objectId = [] then b = false
        else ∃ blob, g.blobs objectId = some blob ∧ b = !checkIfBlobIsEncrypted blob) fun _ _ => True := by
  refine .ite (fun h => .pure fun s hs => ⟨hs, by rw [if_pos h]⟩) fun h => ?_
  refine .bind (checkIfObjectIsEncrypted_spec objectId) fun b => .pure ?_
  rintro s ⟨hg, blob, hblob, rfl⟩
  exact ⟨hg, by rw [if_neg h]; exact ⟨blob, hblob, rfl⟩⟩

/-- A turn treats a file that is marked and passes over the others. -/
theorem statusFile_spec (h : Answers env attributes) {e : StatusEntry} (he : ListedIn g.toGit e)
    {vars : StatusOptions} (hfix : vars.fixProblems = true) (totals : StatusTotals) :
    Triple (fun s => s.2 = g) (statusFile env genv vars totals e.name e.objectId)
      (fun totals' s => if e.isMarked attributes = true then Treated g totals e.name totals' s.2
        else s.2 = g ∧ totals' = totals) fun _ _ => True := by
  have hattrs := (getFileAttributes_returns h e.name_noNul fun _ => True).post fun _ _ => And.right
  refine .bind (onFst_triple (· = g) hattrs) fun attrs => .assuming ?_
  rintro rfl
  rw [isGitCryptFilter_reported]
  refine .ite (fun hfilter => ?_) fun hfilter => ?_
  · refine .bind (blobIsUnencrypted_spec e.objectId) fun unencrypted => .of_start fun s₀ ⟨hg, hblob⟩ => ?_
    have hstart (s : World × GitState) (hs : s = s₀) : s.2 = g := hs ▸ hg
    cases e with
    | untracked name hname =>
      obtain rfl : unencrypted = false := hblob
      refine .ite (fun hc => absurd hc (by simp)) fun _ => .ite (fun hc => absurd hc (by simp [hfix])) fun _ => ?_
      refine .pure fun s hs => ?_
      rw [if_neg (by simp [StatusEntry.isMarked, StatusEntry.isTracked])]
      exact ⟨hstart s hs, rfl⟩
    | tracked tag entry htag =>
      have hne : entry.objectId ≠ [] := entry.objectId_isWord.1
      rw [if_neg (by exact hne)] at hblob
      obtain ⟨blob, hblob, rfl⟩ := hblob
      have hmarked : StatusEntry.isMarked attributes (.tracked tag entry htag) = true := by
        simpa [StatusEntry.isMarked, StatusEntry.isTracked] using hfilter
      have hholds : g.Holds entry.name (some blob) := by
        rw [Git.Holds, he tag entry htag rfl, List.map_singleton]
        exact congrArg (fun b => [b]) hblob
      simp only [if_pos hmarked]
      refine .ite (fun hc => ?_) fun hc => .ite (fun hc => absurd hc (by simp [hfix])) fun _ => .pure fun s hs => ?_
      · exact (fixFile_spec hholds (by simpa [hfix] using hc) totals).pre hstart
      · have hencrypted : checkIfBlobIsEncrypted blob = true := by simpa [hfix] using hc
        rw [hstart s hs]
        exact ⟨.refl _ _, ⟨some blob, hholds, by rw [Option.any_some, if_pos hencrypted]⟩, rfl, rfl⟩
  · have hmarked : ¬ e.isMarked attributes = true := by simp [StatusEntry.isMarked, hfilter]
    simp only [if_neg hmarked]
    refine .ite (fun hc => absurd hc (by simp [hfix])) fun _ => .pure fun s hs => ⟨hs, rfl⟩

theorem Treated.errors_eq {totals totals' : StatusTotals} {name : Bytes} (h : Treated g totals name totals' g') :
    totals'.nbrOfFixErrors =
      if g'.isEncrypted name = true then totals.nbrOfFixErrors else totals.nbrOfFixErrors + 1 := by
  obtain ⟨blob, hholds, herrors⟩ := h.errors
  rw [herrors, hholds.isEncrypted]

/-- The names of the marked files. -/
def Marked (attributes : Attributes) (entries : List StatusEntry) (name : Bytes) : Prop :=
  ∃ e ∈ entries, e.isMarked attributes = true ∧ e.name = name

/-- What the loop leaves. -/
structure AllTreated (attributes : Attributes) (entries : List StatusEntry) (g : GitState) (totals : StatusTotals)
    (totals' : StatusTotals) (g' : GitState) : Prop where
  stages : StagesOnly (Marked attributes entries) g g'
  errors : totals'.nbrOfFixErrors.toNat = totals.nbrOfFixErrors.toNat +
    entries.countP fun e => e.isMarked attributes && !g'.isEncrypted e.name
  attributeErrors : totals'.attributeErrors = totals.attributeErrors
  unencryptedBlobErrors : totals'.unencryptedBlobErrors = totals.unencryptedBlobErrors

variable {entries : List StatusEntry} {e : StatusEntry} {totals totals' totals'' : StatusTotals}

theorem AllTreated.skip (hmarked : ¬ e.isMarked attributes = true)
    (h : AllTreated attributes entries g totals totals' g') :
    AllTreated attributes (e :: entries) g totals totals' g' where
  stages := h.stages.mono fun name ⟨e', he, h⟩ => ⟨e', List.mem_cons_of_mem e he, h⟩
  errors := by rw [h.errors, List.countP_cons_of_neg (by simp [hmarked])]
  attributeErrors := h.attributeErrors
  unencryptedBlobErrors := h.unencryptedBlobErrors

/-- Later turns do not touch the file again, so it is encrypted in the end if it was after its
own turn. -/
theorem AllTreated.treat (hmarked : e.isMarked attributes = true) (hname : e.name ∉ entries.map (·.name))
    (hfirst : Treated g totals e.name totals' g')
    (hcount : totals.nbrOfFixErrors.toNat + 1 < 2 ^ 32)
    (h : AllTreated attributes entries g' totals' totals'' g'') :
    AllTreated attributes (e :: entries) g totals totals'' g'' := by
  have hother : ¬ Marked attributes entries e.name := by
    rintro ⟨e', he', -, hn⟩
    exact hname (hn ▸ List.mem_map_of_mem he')
  have hlast : g''.isEncrypted e.name = g'.isEncrypted e.name := by
    obtain ⟨blob, hblob, -⟩ := hfirst.errors
    rw [(h.stages.holds hother hblob).isEncrypted, hblob.isEncrypted]
  have hsucc : (totals.nbrOfFixErrors + 1).toNat = totals.nbrOfFixErrors.toNat + 1 := by
    rw [UInt32.toNat_add]
    exact Nat.mod_eq_of_lt hcount
  refine ⟨?_, ?_, h.attributeErrors.trans hfirst.attributeErrors,
    h.unencryptedBlobErrors.trans hfirst.unencryptedBlobErrors⟩
  · refine (hfirst.stages.mono ?_).trans (h.stages.mono ?_)
    · rintro name rfl
      exact ⟨e, List.mem_cons_self, hmarked, rfl⟩
    · exact fun name ⟨e', he', hm⟩ => ⟨e', List.mem_cons_of_mem e he', hm⟩
  · rw [h.errors, hfirst.errors_eq, ← hlast]
    by_cases hencrypted : g''.isEncrypted e.name = true
    · rw [if_pos hencrypted, List.countP_cons_of_neg (by simp [hencrypted])]
    · rw [if_neg hencrypted, List.countP_cons_of_pos (by simp [hmarked, hencrypted]), hsucc]
      omega

/-- The loop over files of different names, with as many as the counter can count. -/
theorem statusFiles_spec (h : Answers env attributes) {vars : StatusOptions} (hfix : vars.fixProblems = true)
    (hnames : (entries.map (·.name)).Nodup) (hlisted : ∀ e ∈ entries, ListedIn g.toGit e)
    (hcount : totals.nbrOfFixErrors.toNat + entries.countP (·.isTracked) < 2 ^ 32) :
    Triple (fun s => s.2 = g) (statusFiles env genv vars totals (entries.map fun e => (e.name, e.objectId)))
      (fun totals' s => AllTreated attributes entries g totals totals' s.2) fun _ _ => True := by
  induction entries generalizing g totals with
  | nil =>
    refine .pure ?_
    rintro s rfl
    exact ⟨.refl _ _, rfl, rfl, rfl⟩
  | cons e entries ih =>
    rw [List.map_cons, List.nodup_cons] at hnames
    rw [List.forall_mem_cons] at hlisted
    refine .bind (statusFile_spec h hlisted.1 hfix totals) fun totals' => .of_start fun s₀ hturn => ?_
    by_cases hmarked : e.isMarked attributes = true
    · rw [if_pos hmarked] at hturn
      have htracked : e.isTracked = true := (Bool.and_eq_true_iff.mp hmarked).1
      have htotal : (e :: entries).countP (·.isTracked) = entries.countP (·.isTracked) + 1 :=
        List.countP_cons_of_pos htracked
      have hahead : ∀ e' ∈ entries, ListedIn s₀.2.toGit e' := by
        rintro e' he' tag entry htag rfl
        rw [hturn.stages.others entry.name ?_, hlisted.2 _ he' tag entry htag rfl]
        exact fun hn => hnames.1 (hn ▸ List.mem_map_of_mem (f := (·.name)) he')
      have hcount' : totals'.nbrOfFixErrors.toNat ≤ totals.nbrOfFixErrors.toNat + 1 := by
        rw [hturn.errors_eq]
        split_ifs
        · omega
        · rw [UInt32.toNat_add]
          exact Nat.mod_le _ _
      have hrest := @ih s₀.2 totals' hnames.2 hahead (by omega)
      refine hrest.weaken ?_ (fun totals'' s hrest => ?_) fun _ _ => id
      · rintro s rfl
        rfl
      · exact .treat hmarked hnames.1 hturn (by omega) hrest
    · rw [if_neg hmarked] at hturn
      obtain ⟨rfl, rfl⟩ := hturn
      have hle : entries.countP (·.isTracked) ≤ (e :: entries).countP (·.isTracked) :=
        (List.sublist_cons_self e entries).countP_le
      have hrest := @ih s₀.2 totals' hnames.2 hlisted.2 (by omega)
      refine hrest.weaken ?_ (fun totals'' s hrest => ?_) fun _ _ => id
      · rintro s rfl
        rfl
      · exact hrest.skip hmarked

/-! ### The run -/

/-- What `git ls-files` prints is this listing of the index: of regular files and untracked
ones, all with different names. -/
structure Lists (output : Bytes) (g : Git) (entries : List StatusEntry) : Prop where
  output_eq : output = entries.flatMap (·.line)
  names_nodup : (entries.map (·.name)).Nodup
  unspaced : ∀ e ∈ entries, stripped e.name = e.name
  files : ∀ e ∈ entries, e.isFile = true
  listed : ∀ e ∈ entries, ListedIn g e

theorem examined_lines (hunspaced : ∀ e ∈ entries, stripped e.name = e.name)
    (hfiles : ∀ e ∈ entries, e.isFile = true) :
    examined (entries.flatMap (·.line)) = entries.map fun e => (e.name, e.objectId) := by
  rw [examined_eq]
  induction entries with
  | nil => exact readStatusListing_nil
  | cons e entries ih =>
    rw [List.forall_mem_cons] at hunspaced hfiles
    rw [List.flatMap_cons, List.map_cons, ← ih hunspaced.2 hfiles.2]
    cases e with
    | untracked name hname =>
      rw [readStatusListing_untracked, show stripped name = name from hunspaced.1]
      rfl
    | tracked tag e htag =>
      rw [readStatusListing_line, if_pos (by exact hfiles.1), show stripped e.name = e.name from hunspaced.1]
      rfl

/-- A listing has no more tracked files than the index has entries. -/
theorem Lists.countP_tracked_lt {output : Bytes} {g : Git} (h : Lists output g entries) :
    entries.countP (·.isTracked) < 2 ^ 32 := by
  refine lt_of_le_of_lt ?_ g.index.count_lt
  have hnodup : ((entries.filter (·.isTracked)).map (·.name)).Nodup :=
    h.names_nodup.sublist (List.filter_sublist.map _)
  have hsubset : (entries.filter (·.isTracked)).map (·.name) ⊆ g.index.entries.map (·.name) := by
    intro name hname
    obtain ⟨e, he, rfl⟩ := List.mem_map.mp hname
    obtain ⟨he, htracked⟩ := List.mem_filter.mp he
    cases e with
    | untracked name hname => cases htracked
    | tracked tag entry htag =>
      have hat : entry ∈ g.index.at entry.name := by
        rw [h.listed _ he tag entry htag rfl]
        exact List.mem_singleton_self entry
      exact List.mem_map_of_mem (f := (·.name)) (List.mem_filter.mp hat).1
  have hlength := (List.subperm_of_subset hnodup hsubset).length_le
  rwa [List.length_map, List.length_map, ← List.countP_eq_length_filter] at hlength

/-- The paths `status` lists. -/
def listedPaths (env : Env) (files : List Bytes) : List Bytes :=
  if files ≠ [] then files
  else if ((outputStream env.cdup).getline 10).1 = [] then [] else [((outputStream env.cdup).getline 10).1]

theorem statusPaths_returns (r : Repo) (files : List Bytes) :
    Returns (· = r) (statusPaths env files) fun paths r' => r' = r ∧ paths = listedPaths env files := by
  refine .ite (fun h => .pure fun r' hr => ⟨hr, by rw [listedPaths, if_pos h]⟩) fun h => ?_
  refine .bind (R := fun path r' => r' = r ∧ path = ((outputStream env.cdup).getline 10).1) ?_ fun path => .pure ?_
  · refine .bind (R := fun out r' => r' = r ∧ (out.1 = 0 → out.2 = env.cdup))
      (execCommand_returns (fun r' hr => ⟨hr, by simp⟩) fun w hw => ⟨hw, fun _ => rfl⟩) ?_
    rintro ⟨status, output⟩
    refine .bind (requireSuccess_returns _ _ _) fun _ => .pure ?_
    rintro r' ⟨⟨hr, hout⟩, hs⟩
    exact ⟨hr, by rw [show output = env.cdup from hout hs]⟩
  · rintro r' ⟨hr, rfl⟩
    exact ⟨hr, by rw [listedPaths, if_neg h]⟩

/-- The exit status is 0 where the loop has found nothing wrong. -/
theorem StatusTotals.exitStatus_eq_zero : totals.exitStatus = 0 ↔
    totals.attributeErrors = false ∧ totals.unencryptedBlobErrors = false ∧ totals.nbrOfFixErrors = 0 := by
  unfold exitStatus
  split_ifs with h
  · refine iff_of_false (by decide) ?_
    rintro ⟨ha, hu, he⟩
    simp [ha, hu, he] at h
  · simpa [and_assoc] using h

/-- `status -f` from the listing on. -/
private theorem status_fixes (h : Answers env attributes) {args files : List Bytes}
    (hargs : parseOptions statusOptions {} args = .ok ({ fixProblems := true }, files)) {r : Repo}
    (hlists : Lists (genv.listing r.fs g.toGit (listedPaths env files)) g.toGit entries) :
    Triple (fun s => s.1.toRepo = r ∧ s.2 = g) (status env genv args)
      (fun n s => StagesOnly (Marked attributes entries) g s.2 ∧
        (n = 0 ↔ ∀ e ∈ entries, e.isMarked attributes = true → s.2.isEncrypted e.name = true)) fun _ _ => True := by
  unfold status
  rw [hargs]
  refine .ite (fun hr => absurd hr.2 (by decide)) fun _ => ?_
  refine .bind (((statusPaths_returns r files).onFst (· = g)).weakenError fun _ _ _ => trivial) fun paths => ?_
  refine .of_start fun s₀ ⟨⟨hr, hpaths⟩, hg⟩ => ?_
  subst hpaths
  have hlisting : Triple (fun s => s.1.toRepo = r ∧ s.2 = g)
      (execIndexCommand env genv (.lsFiles (listedPaths env files)))
      (fun out s => s.2 = g ∧ (out.1 = 0 → out.2 = entries.flatMap (·.line))) fun _ _ => True := by
    refine execIndexCommand_query (P := fun w => w.toRepo = r)
      (Q := fun output => output = entries.flatMap (·.line)) rfl (fun _ => rfl) fun w hw _ => ?_
    rw [← hlists.output_eq, ← hw]
    rfl
  refine .bind (hlisting.pre ?_) ?_
  · rintro s rfl
    exact ⟨hr, hg⟩
  rintro ⟨status, output⟩
  refine .assuming fun hout => .bind (requireSuccess_onFst (· = g) status _) fun _ => .assuming fun hs => ?_
  obtain rfl : output = _ := hout hs
  rw [examined_lines hlists.unspaced hlists.files]
  have hcount : (0 : UInt32).toNat + entries.countP (·.isTracked) < 2 ^ 32 := by
    simpa using hlists.countP_tracked_lt
  refine .bind (statusFiles_spec h rfl hlists.names_nodup hlists.listed hcount) fun totals => ?_
  refine .of_start fun s₁ hall => .bind (onFst_keeps (· = s₁.2) _ |>.pre fun s hs => hs ▸ rfl) fun _ => .pure ?_
  intro s hs
  have herrors := hall.errors
  rw [hs]
  refine ⟨hall.stages, ?_⟩
  rw [StatusTotals.exitStatus_eq_zero, hall.attributeErrors, hall.unencryptedBlobErrors, ← UInt32.toNat_inj, herrors]
  simp [List.countP_eq_zero]

/-- A filter attribute that names a key of git-crypt. -/
def NamesGitCrypt (filter : Bytes) : Prop := filter = str "git-crypt" ∨ str "git-crypt-" <+: filter

theorem isMarked_iff : e.isMarked attributes = true ↔ e.isTracked = true ∧ NamesGitCrypt (attributes.filter e.name) := by
  rw [StatusEntry.isMarked, Bool.and_eq_true, isGitCryptFilter_iff, NamesGitCrypt]

/-- `status -f` returns 0 exactly when every tracked file of the listing with a filter of
git-crypt has an encrypted blob in the end, and it stages none but such files. -/
theorem status_fix_sound (h : Answers env attributes) {args files : List Bytes}
    (hargs : parseOptions statusOptions {} args = .ok ({ fixProblems := true }, files)) {w w' : World}
    (hlists : Lists (genv.listing w.fs g.toGit (listedPaths env files)) g.toGit entries) {n : Nat}
    (hrun : status env genv args (w, g) = (.ok n, w', g')) :
    (n = 0 ↔ ∀ e ∈ entries, e.isTracked = true → NamesGitCrypt (attributes.filter e.name) →
      g'.isEncrypted e.name = true) ∧
    StagesOnly (fun name => ∃ e ∈ entries, e.isTracked = true ∧ NamesGitCrypt (attributes.filter e.name) ∧
      e.name = name) g g' := by
  obtain ⟨hstages, hzero⟩ := (status_fixes h hargs hlists).ok ⟨rfl, rfl⟩ hrun
  constructor
  · rw [hzero]
    simp only [isMarked_iff, and_imp]
  · refine hstages.mono ?_
    rintro name ⟨e, he, hmarked, hname⟩
    obtain ⟨htracked, hfilter⟩ := isMarked_iff.mp hmarked
    exact ⟨e, he, htracked, hfilter, hname⟩

/-- The object of a file that has been encrypted. -/
def encryptedId : Bytes := str "5d308e1d060b0c387d452cf4747f89ecb9935851"

private theorem encryptedId_isWord : IsWord encryptedId := by decide +kernel

def IndexEntry.reencrypted (e : IndexEntry) : IndexEntry :=
  { e with objectId := encryptedId, objectId_isWord := encryptedId_isWord }

/-- The entries of a path replaced by one with a new object. -/
def restaged (entries : List IndexEntry) (filename : Bytes) : List IndexEntry :=
  (entries.find? (·.name = filename)).toList.map (·.reencrypted) ++ entries.filter (·.name ≠ filename)

private theorem length_restaged_le (entries : List IndexEntry) (filename : Bytes) :
    (restaged entries filename).length ≤ entries.length := by
  rw [restaged, List.length_append, List.length_map]
  cases hfind : entries.find? (·.name = filename) with
  | none =>
    rw [Option.toList_none, List.length_nil, Nat.zero_add]
    exact List.length_filter_le _ _
  | some e =>
    have hname : e.name = filename := by simpa using List.find?_some hfind
    have hlt : (entries.filter (·.name ≠ filename)).length < entries.length :=
      List.length_filter_lt_length_iff_exists.mpr ⟨e, List.mem_of_find?_eq_some hfind, by simp [hname]⟩
    rw [Option.toList_some, List.length_singleton]
    omega

theorem filter_restaged (entries : List IndexEntry) (filename name : Bytes) :
    (restaged entries filename).filter (·.name = name) = if name = filename
      then (entries.find? (·.name = filename)).toList.map (·.reencrypted)
      else entries.filter (·.name = name) := by
  have hname : ∀ e ∈ (entries.find? (·.name = filename)).toList.map (·.reencrypted), e.name = filename := by
    intro e he
    obtain ⟨e', he', rfl⟩ := List.mem_map.mp he
    have hfound : e'.name = filename := by simpa using List.find?_some (Option.mem_toList.mp he')
    exact hfound
  rw [restaged, List.filter_append, List.filter_filter]
  split_ifs with h
  · subst h
    have hnone : entries.filter (fun e => decide (e.name = name) && decide (e.name ≠ name)) = [] := by
      rw [List.filter_eq_nil_iff]
      simp
    rw [List.filter_eq_self.mpr fun e he => decide_eq_true (hname e he), hnone, List.append_nil]
  · rw [List.filter_eq_nil_iff.mpr fun e he => by simpa [hname e he] using Ne.symm h, List.nil_append]
    refine List.filter_congr fun e _ => ?_
    by_cases he : e.name = name
    · simp [he, h]
    · simp [he]

/-- A `git add` whose clean filter encrypts, for files that are tracked. -/
def encryptingAdd : GitAdd where
  run _ g filename := (0, {
    index := ⟨restaged g.index.entries filename, lt_of_le_of_lt (length_restaged_le _ _) g.index.count_lt⟩
    blobs := fun objectId =>
      if objectId = encryptedId ∧ g.blobs objectId = none then some fileMagic else g.blobs objectId })
  others w g filename name hname := (filter_restaged _ _ _).trans (if_neg hname)
  single w g filename _ := by
    rw [Index.at, filter_restaged, if_pos rfl, List.length_map]
    exact Option.length_toList_le
  blobs w g filename objectId blob hblob := by simp [hblob]

/-- The file `f` is to be encrypted. -/
def markedAttributes : Attributes where
  filter name := if name = str "f" then str "git-crypt-work" else str "unspecified"
  diff name := if name = str "f" then str "git-crypt-work" else str "unspecified"
  filter_isValue name := by split_ifs <;> decide
  diff_isValue name := by split_ifs <;> decide

def plainId : Bytes := str "d670460b4b4aece5915caf5c68d12f560a9fe3e4"

theorem plainId_isWord : IsWord plainId := by decide +kernel

/-- The file has been staged as it is. -/
def plainlyStaged : GitState where
  index := ⟨[plainFile plainId plainId_isWord], by decide⟩
  blobs objectId := if objectId = plainId then some (str "secret") else none

/-- What git lists beside an untracked file. -/
def listingGit : GitEnv where
  listing _ g _ := StatusEntry.line (.untracked (str "notes") (by decide)) ++
    g.index.entries.flatMap fun e => 72 :: 32 :: e.line
  add := encryptingAdd

/-- The repository with the file in its working tree. -/
def workRepo : Repo := ⟨(freshRepo.fs.writeFile [] (str "f") fun _ => str "secret").toOption.getD .empty, []⟩

private theorem isTag_cached : isSpace 72 = false ∧ (72 : UInt8) ≠ 63 := by decide

/-- What is listed. -/
def workEntries : List StatusEntry :=
  [.untracked (str "notes") (by decide),
    .tracked 72 (plainFile plainId plainId_isWord) isTag_cached]

theorem lists_workEntries (paths : List Bytes) :
    Lists (listingGit.listing workRepo.fs plainlyStaged.toGit paths) plainlyStaged.toGit workEntries where
  output_eq := rfl
  names_nodup := by decide
  unspaced := by decide
  files := by decide +kernel
  listed := by
    intro e he tag entry htag h
    simp only [workEntries, List.mem_cons, List.not_mem_nil, or_false] at he
    rcases he with rfl | rfl
    · cases h
    · cases h
      rfl

theorem parseOptions_fix : parseOptions statusOptions {} [str "-f"] = .ok ({ fixProblems := true }, []) := by
  rw [parseOptions, if_neg (by decide), if_neg (by decide)]
  rfl

/-- The world in which the loop starts. -/
def workListed : World × GitState :=
  ({ workRepo.start (answeringEnv markedAttributes []) with ops := 2, trace := [.ran .gitRevParseShowCdup 0] },
    plainlyStaged)

/-- The file is staged again, and then it is encrypted. -/
theorem status_fix_sound_work : ∃ w' g',
    status (answeringEnv markedAttributes []) listingGit [str "-f"]
      (workRepo.start (answeringEnv markedAttributes []), plainlyStaged) = (.ok 0, w', g') ∧
    (0 = 0 ↔ ∀ e ∈ workEntries, e.isTracked = true → NamesGitCrypt (markedAttributes.filter e.name) →
      g'.isEncrypted e.name = true) ∧
    StagesOnly (fun name => ∃ e ∈ workEntries, e.isTracked = true ∧ NamesGitCrypt (markedAttributes.filter e.name) ∧
      e.name = name) plainlyStaged g' := by
  have hlists := lists_workEntries []
  have hstatus : status (answeringEnv markedAttributes []) listingGit [str "-f"]
      (workRepo.start (answeringEnv markedAttributes []), plainlyStaged) =
        statusOf (answeringEnv markedAttributes []) listingGit { fixProblems := true }
          (workEntries.map fun e => (e.name, e.objectId)) workListed := by
    rw [← examined_lines hlists.unspaced hlists.files, status, parseOptions_fix]
    rfl
  have hzero : (statusOf (answeringEnv markedAttributes []) listingGit { fixProblems := true }
      (workEntries.map fun e => (e.name, e.objectId)) workListed).1.toOption = some 0 := by decide +kernel
  rcases hrun : statusOf (answeringEnv markedAttributes []) listingGit { fixProblems := true }
      (workEntries.map fun e => (e.name, e.objectId)) workListed with ⟨e | n, w', g'⟩ <;> rw [hrun] at hzero
  · cases hzero
  · cases hzero
    rw [hrun] at hstatus
    exact ⟨w', g', hstatus, status_fix_sound (answers_answeringEnv _ _) parseOptions_fix (lists_workEntries _) hstatus⟩

end GitCrypt
