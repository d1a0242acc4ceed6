import GitCrypt.EncryptedFiles
import GitCrypt.Library.Dialogue

/-! `get_encrypted_files` with the two processes that run beside it, `git ls-files` and
`git check-attr`, over pipes of any size. -/
namespace GitCrypt
open Iostream IStream Inevitability

/-! ### The loop -/

/-- Where the loop of `get_encrypted_files` is, with the files it has appended. -/
inductive FilesLoop where
  /-- at `ls_files_stdout->peek()` -/
  | listing (files : List Bytes)
  /-- at `get_file_attributes` -/
  | listed (files : List Bytes) (filename : Bytes)
  /-- behind the loop -/
  | finished (files : List Bytes)

/-- The first three lines of the loop, unless the listing has ended. -/
def listingEntryAfter (next : Option UInt8) (lsFilesOutput : IStream) : Option (Bytes × Bytes) × IStream :=
  match next with
  | none => (none, lsFilesOutput)
  | some _ => (some (readListingEntry lsFilesOutput).1, (readListingEntry lsFilesOutput).2)

def nextListingEntry (lsFilesOutput : IStream) : Option (Bytes × Bytes) × IStream :=
  listingEntryAfter lsFilesOutput.peek.1 lsFilesOutput.peek.2

/-- The loop of `get_file_attributes` over the two attributes. -/
def readAttributeReplies (s : IStream) : (Bytes × Bytes) × IStream :=
  readAttributeReply (readAttributeReply ([], []) s).1 (readAttributeReply ([], []) s).2

namespace FilesLoop

/-- After the first three lines of the loop. -/
def afterEntry (files : List Bytes) : Option (Bytes × Bytes) → FilesLoop
  | none => finished files
  | some (mode, filename) => if isGitFileMode mode then listed files filename else listing files

/-- After `get_file_attributes`. -/
def afterAttributes (keyName : Option Bytes) (files : List Bytes) (filename : Bytes) (attrs : Bytes × Bytes) : FilesLoop :=
  if attrs.1 = attributeName keyName then listing (files ++ [filename]) else listing files

def move (keyName : Option Bytes) : FilesLoop → Move FilesLoop (Option (Bytes × Bytes)) (Bytes × Bytes) (List Bytes)
  | listing files => .read (afterEntry files)
  | listed files filename => .ask filename (afterAttributes keyName files filename)
  | finished files => .done files

end FilesLoop

/-- The three of them, with when `git check-attr` writes out the replies it holds and what the pipes
hold: file names end with a NUL. -/
def filesDialogue (env : Env) (flushes : Bytes → Bool) (keyName : Option Bytes)
    (lsFilesStdout checkAttrStdin checkAttrStdout : Nat) :
    Dialogue FilesLoop (Option (Bytes × Bytes)) (Bytes × Bytes) (List Bytes) where
  move := FilesLoop.move keyName
  readEntry := nextListingEntry
  readReply := readAttributeReplies
  delim := 0
  answer := env.checkAttrReply
  flushes
  sourceCapacity := lsFilesStdout
  requestCapacity := checkAttrStdin
  replyCapacity := checkAttrStdout

/-- `git check-attr` writes out each reply before it reads the next name, as it does when its output
is not a file, unless `GIT_FLUSH` is 0. -/
def FlushesReplies (env : Env) (flushes : Bytes → Bool) : Prop :=
  ∀ name, (0 : UInt8) ∉ name → flushes (env.checkAttrReply name) = true

/-! ### Reading -/

private theorem incremental_readListingEntry : Incremental readListingEntry :=
  Incremental.extractWord.bind fun mode => Incremental.extractWord.bind fun _ => Incremental.extractWord.bind fun _ =>
    Incremental.skipWs.bind fun _ => (Incremental.getline 0).bind fun filename => .pure (mode, filename)

private theorem incremental_nextListingEntry : Incremental nextListingEntry := by
  refine Incremental.peek.bind fun next => ?_
  cases next with
  | none => exact .pure none
  | some b => exact incremental_readListingEntry.bind fun entry => .pure (some entry)

theorem incremental_readAttributeReply (attrs : Bytes × Bytes) : Incremental (readAttributeReply attrs) :=
  (Incremental.getline 0).bind fun _ => (Incremental.getline 0).bind fun attrName =>
    (Incremental.getline 0).bind fun attrValue => .pure (recordAttribute attrs attrName attrValue)

private theorem incremental_readAttributeReplies : Incremental readAttributeReplies :=
  (incremental_readAttributeReply ([], [])).bind incremental_readAttributeReply

private theorem spent_nextListingEntry {s : IStream} (h : Spent s) : Spent (nextListingEntry s).2 := by
  unfold nextListingEntry
  cases s.peek.1 with
  | none => exact h.peek
  | some b => exact h.peek.extractWord.extractWord.extractWord.skipWs.getline 0

/-! ### The loop by itself -/

variable {env : Env} {flushes : Bytes → Bool} {attributes : Attributes} {keyName : Option Bytes}

private theorem filesDialogue_lawful (h : Answers env attributes) (hflushes : FlushesReplies env flushes)
    (keyName : Option Bytes) {lsFilesStdout checkAttrStdin checkAttrStdout : Nat} (hls : 0 < lsFilesStdout)
    (hin : 0 < checkAttrStdin) (hout : 0 < checkAttrStdout) :
    (filesDialogue env flushes keyName lsFilesStdout checkAttrStdin checkAttrStdout).Lawful where
  readEntry := incremental_nextListingEntry
  readReply := incremental_readAttributeReplies
  answer_ne := by
    intro name hname hnil
    change env.checkAttrReply name = [] at hnil
    rw [h.stream name hname] at hnil
    simp [attributeTriple] at hnil
  flushes := hflushes
  whole := by
    intro name hname
    have hreply := getFileAttributesFrom_spec h hname
    rw [getFileAttributesFrom, ofBytes_rest, List.nil_append] at hreply
    exact congrArg Prod.snd hreply
  source_pos := hls
  request_pos := hin
  reply_pos := hout

private theorem nextListingEntry_some {s : IStream} (h : s.peek.1.isSome = true) :
    nextListingEntry s = (some (readListingEntry s.peek.2).1, (readListingEntry s.peek.2).2) := by
  obtain ⟨b, hb⟩ := Option.isSome_iff_exists.mp h
  rw [nextListingEntry, hb, listingEntryAfter]

/-- The listing ends where nothing is left of it. -/
private theorem nextListingEntry_none {s : IStream} (h : ¬ s.peek.1.isSome = true) (hs : Spent s) :
    (nextListingEntry s).1 = none ∧ (nextListingEntry s).2.rest = [] := by
  have hnone : s.peek.1 = none := by simpa using h
  have hbad : s.peek.2.good = false := by
    by_cases hg : s.good = true
    · have hr := (peek_none_iff hg).mp hnone
      simp only [peek, hg, hr, if_true]
      rfl
    · simp only [peek, hg]
      simp [good]
  rw [nextListingEntry, hnone]
  exact ⟨rfl, hs.peek hbad⟩

section
variable (lsFilesStdout checkAttrStdin checkAttrStdout : Nat)

/-- With the reply at hand, a file is appended if it has the filter of the key. -/
private theorem filesDialogue_asks (h : Answers env attributes) {filename : Bytes} (hname : (0 : UInt8) ∉ filename)
    {w : Nat} {s : IStream} {files found : List Bytes}
    (hrest : (filesDialogue env flushes keyName lsFilesStdout checkAttrStdin checkAttrStdout).Evals w
      (.listing (files ++ encryptedNames attributes keyName [filename])) s found) :
    ∃ w, (filesDialogue env flushes keyName lsFilesStdout checkAttrStdin checkAttrStdout).Evals w
      (.listed files filename) s found := by
  refine ⟨w + Dialogue.cost _ filename, .ask rfl hname ?_⟩
  have hreply := getFileAttributesFrom_spec h hname
  rw [getFileAttributesFrom, ofBytes_rest, List.nil_append] at hreply
  have hattrs : (readAttributeReplies (.ofBytes (env.checkAttrReply filename))).1 =
      (reported (attributes.filter filename), reported (attributes.diff filename)) := congrArg Prod.fst hreply
  change Dialogue.Evals _ _ (FilesLoop.afterAttributes keyName files filename
    (readAttributeReplies (.ofBytes (env.checkAttrReply filename))).1) s found
  rw [hattrs, FilesLoop.afterAttributes]
  simp only [reported_eq_attributeName]
  by_cases hf : attributes.filter filename = attributeName keyName
  · rw [if_pos hf]
    rwa [encryptedNames, List.filter_cons_of_pos (by simpa using hf)] at hrest
  · rw [if_neg hf]
    rwa [encryptedNames, List.filter_cons_of_neg (by simpa using hf), List.filter_nil, List.append_nil] at hrest

/-- The loop, with the attributes at hand, appends the names of the listing with the filter of the
key. -/
private theorem filesDialogue_evals (h : Answers env attributes) {s : IStream} (hs : Spent s) (files : List Bytes) :
    ∃ w, (filesDialogue env flushes keyName lsFilesStdout checkAttrStdin checkAttrStdout).Evals w (.listing files) s
      (files ++ encryptedNames attributes keyName (((readListing s).filter (isGitFileMode ·.1)).map (·.2))) := by
  fun_induction readListing s generalizing files with
  | case1 s hpeek ih =>
    have hnext := nextListingEntry_some hpeek
    have hspent := spent_nextListingEntry hs
    rw [hnext] at hspent
    have hname : (0 : UInt8) ∉ (readListingEntry s.peek.2).1.2 := delim_notMem_getline _ 0
    obtain ⟨⟨mode, filename⟩, s', hentry⟩ : ∃ entry s', readListingEntry s.peek.2 = (entry, s') := ⟨_, _, rfl⟩
    rw [hentry] at hnext hspent hname ih
    rw [hentry]
    have hread {w : Nat} {found : List Bytes} (hrest : Dialogue.Evals
        (filesDialogue env flushes keyName lsFilesStdout checkAttrStdin checkAttrStdout) w
        (FilesLoop.afterEntry files (some (mode, filename))) s' found) :
        Dialogue.Evals (filesDialogue env flushes keyName lsFilesStdout checkAttrStdin checkAttrStdout) (w + 1)
          (.listing files) s found := by
      refine .read rfl ?_
      change Dialogue.Evals _ _ (FilesLoop.afterEntry files (nextListingEntry s).1) (nextListingEntry s).2 _
      rw [hnext]
      exact hrest
    dsimp only at ih ⊢
    by_cases hmode : isGitFileMode mode = true
    · rw [@List.filter_cons_of_pos _ (isGitFileMode ·.1) (mode, filename) _ hmode, List.map_cons]
      obtain ⟨w, hw⟩ := ih hspent (files ++ encryptedNames attributes keyName [filename])
      rw [List.append_assoc, encryptedNames, encryptedNames, ← List.filter_append, List.singleton_append] at hw
      obtain ⟨w', hw'⟩ := filesDialogue_asks lsFilesStdout checkAttrStdin checkAttrStdout h hname hw
      exact ⟨w' + 1, hread (by rw [FilesLoop.afterEntry, if_pos hmode]; exact hw')⟩
    · rw [@List.filter_cons_of_neg _ (isGitFileMode ·.1) (mode, filename) _ hmode]
      obtain ⟨w, hw⟩ := ih hspent files
      exact ⟨w + 1, hread (by rw [FilesLoop.afterEntry, if_neg hmode]; exact hw)⟩
  | case2 s hpeek =>
    obtain ⟨hnone, hrest⟩ := nextListingEntry_none hpeek hs
    rw [List.filter_nil, List.map_nil, encryptedNames, List.filter_nil, List.append_nil]
    refine ⟨1, .read rfl ?_⟩
    change Dialogue.Evals _ _ (FilesLoop.afterEntry files (nextListingEntry s).1) (nextListingEntry s).2 _
    rw [hnone]
    exact .done rfl hrest

/-- Whatever the pipes hold, however `git ls-files`, `git check-attr` and the program take turns and
however much a read or a write gets through, none of them is left waiting, and the files are those
of the program that has the whole listing and all the replies at hand, where `git check-attr` writes
out each reply. -/
theorem getEncryptedFiles_inevitable (h : Answers env attributes) (hflushes : FlushesReplies env flushes)
    (hls : 0 < lsFilesStdout) (hin : 0 < checkAttrStdin) (hout : 0 < checkAttrStdout) {w w' : World}
    {files : List Bytes} (hrun : getEncryptedFiles env keyName w = (.ok files, w')) :
    Inevitable (Dialogue.Step (filesDialogue env flushes keyName lsFilesStdout checkAttrStdin checkAttrStdout))
        (Dialogue.Over files) (Dialogue.start (.listing []) (env.lsFiles w.fs)) ∧
      ∀ s, Relation.ReflTransGen
          (Dialogue.Step (filesDialogue env flushes keyName lsFilesStdout checkAttrStdin checkAttrStdout))
          (Dialogue.start (.listing []) (env.lsFiles w.fs)) s →
        (∀ t, ¬ Dialogue.Step (filesDialogue env flushes keyName lsFilesStdout checkAttrStdin checkAttrStdout) s t) →
        Dialogue.Over files s := by
  have hfiles := (getEncryptedFiles_lists h keyName (env.lsFiles w.fs)).of_run rfl hrun
  have hD := @filesDialogue_lawful env flushes attributes h hflushes keyName _ _ _ hls hin hout
  obtain ⟨n, hevals⟩ := @filesDialogue_evals env flushes attributes keyName lsFilesStdout checkAttrStdin
    checkAttrStdout h (.ofBytes (env.lsFiles w.fs)) (.ofBytes _) []
  rw [List.nil_append] at hevals
  rw [hfiles]
  exact ⟨Dialogue.over_inevitable hD hevals, fun s hrun hstuck => Dialogue.over_of_stuck hD hevals hrun hstuck⟩

end

/-- A file whose name is as it should be. -/
def keptFile : IndexEntry where
  mode := 0o100644
  objectId := str "d670460b4b4aece5915caf5c68d12f560a9fe3e4"
  stage := str "0"
  name := str "token"
  objectId_isWord := spacedFile.objectId_isWord
  stage_isWord := spacedFile.stage_isWord
  name_noNul := by decide +kernel

def keptAttributes : Attributes where
  filter name := if name = str "token" then str "git-crypt" else str "unspecified"
  diff name := if name = str "token" then str "git-crypt" else str "unspecified"
  filter_isValue name := by split_ifs <;> decide
  diff_isValue name := by split_ifs <;> decide

/-- Pipes that hold one byte do. -/
theorem getEncryptedFiles_inevitable_keptFile :
    Inevitable (Dialogue.Step (filesDialogue (answeringEnv keptAttributes [keptFile]) (fun _ => true) none 1 1 1))
      (Dialogue.Over [str "token"]) (Dialogue.start (.listing []) keptFile.line) := by
  have hok : (getEncryptedFiles (answeringEnv keptAttributes [keptFile]) none
      (freshRepo.start (answeringEnv keptAttributes [keptFile]))).1.toOption = some [str "token"] := by decide +kernel
  obtain ⟨⟨e | files, w⟩, hrun⟩ : ∃ run, getEncryptedFiles (answeringEnv keptAttributes [keptFile]) none
      (freshRepo.start (answeringEnv keptAttributes [keptFile])) = run := ⟨_, rfl⟩
  · rw [hrun] at hok
    cases hok
  · rw [hrun] at hok
    obtain rfl : files = [str "token"] := Option.some.inj hok
    exact (getEncryptedFiles_inevitable 1 1 1 (answers_answeringEnv _ _) (fun _ _ => rfl) Nat.one_pos Nat.one_pos
      Nat.one_pos hrun).1

end GitCrypt
