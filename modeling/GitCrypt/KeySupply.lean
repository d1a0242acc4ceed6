import GitCrypt.KeyOrigins
import GitCrypt.Sharing

/-! Which key files `unlock` takes in, and that it keeps the keys where these are genuine. -/
namespace GitCrypt
open Iostream Posix FileSystem Prog
variable {env : Env} {gitDir : Location} {made : MadeKeys} {args : List Bytes} {r₀ : Repo}

/-- What gpg decrypts from one of the files that `decrypt_repo_keys` looks at. -/
def RepoSupplied (env : Env) (keyVersion : UInt32) (keysPath : Bytes) (r₀ : Repo) (bytes : Bytes) : Prop :=
  ∃ keyName fingerprint, decryptedContents env r₀ (repoKeyPath keysPath keyName keyVersion fingerprint) = some bytes

/-- The bytes that `unlock` may take for a key file. -/
inductive Supplied (env : Env) (args : List Bytes) (r₀ : Repo) : Bytes → Prop
  | stdin (h : str "-" ∈ args) : Supplied env args r₀ env.stdin
  | file {arg bytes : Bytes} (harg : arg ∈ args) (hdash : arg ≠ str "-") (h : readable env arg r₀.fs = some bytes) :
    Supplied env args r₀ bytes
  | gpg {statePath bytes : Bytes} (hargs : args = []) (hstate : repoStatePath env r₀.config = some statePath)
    (h : RepoSupplied env unlockKeyVersion (statePath ++ str "/keys") r₀ bytes) : Supplied env args r₀ bytes

/-- `unlock` is reading key files: the standard input is untouched, or at its end. -/
def Reading (env : Env) (r₀ : Repo) (w : World) : Prop :=
  w.toRepo = r₀ ∧ (w.cin = .ofBytes env.stdin ∨ w.cin.good = false)

/-- The key files are loaded from what is supplied. -/
def AllSupplied (env : Env) (args : List Bytes) (r₀ : Repo) (keyFiles : List KeyFile) : Prop :=
  ∀ keyFile ∈ keyFiles, ∃ bytes, Supplied env args r₀ bytes ∧ KeyFile.loadBytes bytes = .ok keyFile

private theorem loadSymmetricKeyFile_supplied {arg : Bytes} (harg : arg ∈ args) :
    Triple (Reading env r₀) (loadSymmetricKeyFile env arg)
      (fun res w => ∀ keyFile, res = some keyFile → Reading env r₀ w ∧ AllSupplied env args r₀ [keyFile])
      fun _ _ => True := by
  intro w hw
  unfold loadSymmetricKeyFile
  by_cases hdash : arg = str "-"
  · rw [if_pos hdash]
    have hget (k : World → Action (Option KeyFile)) : (get >>= k) w = k w w := rfl
    rw [hget]
    rcases hload : KeyFile.empty.load w.cin with ⟨keyFile, e | rest⟩
    · cases e <;> trivial
    · intro keyFile' he
      cases he
      refine ⟨⟨hw.1, .inr (KeyFile.load_ends hload)⟩, fun keyFile' hmem => ?_⟩
      rw [List.mem_singleton.mp hmem]
      rcases hw.2 with hcin | hend
      · refine ⟨env.stdin, .stdin (hdash ▸ harg), ?_⟩
        rw [KeyFile.loadBytes, ← hcin, hload]
      · rw [KeyFile.load_at_end _ hend] at hload
        cases hload
  · rw [if_neg hdash]
    obtain ⟨w₁, hread, -, -, hcin⟩ := @readFile_readable env arg w
    have hrepo : w₁.toRepo = w.toRepo := congrArg Prod.fst ((readFile_quiet arg).seen_eq hread)
    rw [Prog.bind_of_ok hread]
    have hreading : Reading env r₀ w₁ := ⟨hrepo.trans hw.1, by rw [hcin]; exact hw.2⟩
    cases hcontents : (if env.fails w.ops = true then none else readable env arg w.fs) with
    | none => exact fun _ he => by cases he
    | some bytes =>
      have hreadable : readable env arg r₀.fs = some bytes := by
        split_ifs at hcontents
        rw [← hw.1]
        exact hcontents
      have hloaded := Triple.bind (loaded_returns (KeyFile.empty.load (.ofBytes bytes)) fun _ _ _ => trivial)
        (Q := fun res w => ∀ keyFile, res = some keyFile → Reading env r₀ w ∧ AllSupplied env args r₀ [keyFile])
        (P := Reading env r₀) (E := fun _ _ => True) fun keyFile => .pure (a := some keyFile) ?_
      · exact hloaded w₁ hreading
      rintro w₂ ⟨hw₂, rest, hload⟩ keyFile' he
      cases he
      refine ⟨hw₂, fun keyFile' hmem => ?_⟩
      rw [List.mem_singleton.mp hmem]
      exact ⟨bytes, .file harg hdash hreadable, KeyFile.loadBytes_of_load hload⟩

private theorem readSymmetricKeyFile_supplied {arg : Bytes} (harg : arg ∈ args) :
    Triple (Reading env r₀) (readSymmetricKeyFile env arg)
      (fun res w => ∀ keyFile, res = some keyFile → Reading env r₀ w ∧ AllSupplied env args r₀ [keyFile])
      fun _ _ => True := by
  refine .tryCatch (loadSymmetricKeyFile_supplied harg) fun e => ?_
  split
  · exact fun _ _ _ he => by cases he
  · exact fun _ _ _ he => by cases he
  · exact .throw fun _ _ => trivial

theorem readSymmetricKeyFiles_supplied {rest : List Bytes} (hrest : rest ⊆ args) :
    Triple (Reading env r₀) (readSymmetricKeyFiles env rest)
      (fun res _ => ∀ keyFiles, res = some keyFiles → AllSupplied env args r₀ keyFiles) fun _ _ => True := by
  induction rest with
  | nil => exact .pure fun _ _ keyFiles he => by cases he; exact fun _ hmem => by cases hmem
  | cons arg rest ih =>
    obtain ⟨harg, hrest⟩ := List.cons_subset.mp hrest
    refine .bind (readSymmetricKeyFile_supplied harg) fun res => ?_
    cases res with
    | none => exact .pure fun _ _ _ he => by cases he
    | some keyFile =>
      refine .of_start fun w hw => ?_
      obtain ⟨hreading, hfirst⟩ := hw keyFile rfl
      refine .bind ((ih hrest).pre fun _ he => he ▸ hreading) fun res => ?_
      cases res with
      | none => exact .pure fun _ _ _ he => by cases he
      | some keyFiles =>
        refine .pure fun _ hothers keyFiles' he => ?_
        cases he
        exact List.forall_mem_cons.mpr ⟨hfirst keyFile List.mem_cons_self, hothers keyFiles rfl⟩

/-! ### Keys of the repository -/

theorem Returns.staying {α : Type} {m : Action α} {P : Repo → Prop} {Q : α → Repo → Prop} (h : Returns P m Q)
    (hquiet : Quiet m) : Returns P m fun a r => P r ∧ Q a r :=
  ((hquiet.returns P).and h).pre fun _ hr => ⟨hr, hr⟩

private theorem gpgDecryptFromFile_decrypts (path : Bytes) :
    Returns (· = r₀) (gpgDecryptFromFile env path) fun input _ =>
      ∃ bytes, decryptedContents env r₀ path = some bytes ∧ input = outputStream bytes := by
  refine gpgGetExecutable_quiet.andThen fun program =>
    .bind (R := fun out _ => out.1 = 0 → decryptedContents env r₀ path = some out.2)
      (execCommand_returns (fun _ _ h => by cases h) ?_) fun out => ?_
  · rintro w rfl
    dsimp only [Command.run]
    split
    · exact fun h => by cases h
    · rename_i contents hread
      split
      · exact fun h => by cases h
      · rename_i data hdecrypt
        intro _
        rw [decryptedContents, hread]
        exact hdecrypt
  · refine .bind (requireSuccess_returns _ _ _) fun _ => .pure ?_
    rintro r ⟨hdecrypted, hstatus⟩
    exact ⟨out.2, hdecrypted hstatus, rfl⟩

private theorem tryGpgDecrypt_decrypts (path : Bytes) :
    Returns (· = r₀) (tryGpgDecrypt env path) fun res _ =>
      ∀ input, res = .ok input → ∃ bytes, decryptedContents env r₀ path = some bytes ∧ input = outputStream bytes := by
  refine .tryCatch (.bind (gpgDecryptFromFile_decrypts path) fun input => .pure ?_) fun e => ?_
  · rintro r hdecrypted input' he
    cases he
    exact hdecrypted
  · split
    · exact .pure fun _ _ _ he => by cases he
    · exact .raise _

/-- Nothing is read from the standard input. -/
theorem getGitStatus_reading : Keeps (fun w : World => (w.toRepo, w.cin)) (getGitStatus env) := by
  refine .bind (fun w => ?_) fun _ => .bind (.ite (.pure _) (.throw _)) fun _ => .pure _
  unfold execCommand
  dsimp only
  split_ifs <;> rfl

/-- The key files hold keys that were made for their names. -/
def AllFrom (made : MadeKeys) (keyFiles : List KeyFile) : Prop :=
  ∀ keyFile ∈ keyFiles, keyFile.Storable ∧ keyFile.From made

theorem AllSupplied.allFrom {keyFiles : List KeyFile} (h : AllSupplied env args r₀ keyFiles)
    (hgenuine : ∀ bytes, Supplied env args r₀ bytes → Genuine made bytes) : AllFrom made keyFiles := by
  intro keyFile hmem
  obtain ⟨bytes, hsupplied, hload⟩ := h keyFile hmem
  exact ⟨KeyFile.storable_of_loadBytes hload, hgenuine bytes hsupplied keyFile hload⟩

section
variable {keyVersion : UInt32} {keysPath : Bytes}
  (hgenuine : ∀ bytes, RepoSupplied env keyVersion keysPath r₀ bytes → Genuine made bytes)
include hgenuine

theorem decryptRepoKeyWith_from {keyName : Option Bytes} (hn : LegalKeyName keyName)
    (gpgError : Option Exception) (secretKeys : List Bytes) :
    Returns (· = r₀) (decryptRepoKeyWith env KeyFile.empty keyName keyVersion keysPath gpgError secretKeys)
      fun decrypted _ => AllFrom made decrypted.toList := by
  induction secretKeys generalizing gpgError with
  | nil =>
    unfold decryptRepoKeyWith
    split
    · exact .raise _
    · exact .pure fun _ _ _ hmem => by cases hmem
  | cons seckey secretKeys ih =>
    refine (access_quiet _).andThen fun res => ?_
    split
    · exact ih _
    · refine .bind ((tryGpgDecrypt_decrypts _).staying (tryGpgDecrypt_quiet _)) fun res => ?_
      split
      · exact (ih _).pre fun _ hr => hr.1
      · rename_i input
        refine .of_start fun r hr => ?_
        obtain ⟨bytes, hdecrypted, rfl⟩ := hr.2 input rfl
        refine .bind (R := fun keyFile _ => ∃ key, HoldsKey bytes keyName keyVersion key ∧
          keyFile = (KeyFile.empty.setKeyName keyName).add key) ?_ fun keyFile => .pure ?_
        · exact (acceptRepoKey_spec KeyFile.empty keyName keyVersion bytes).weaken (fun _ _ => trivial) (fun _ _ => id)
            fun _ _ _ => trivial
        · rintro _ ⟨key, ⟨loadedFile, hload, hget, hname⟩, rfl⟩ keyFile hmem
          cases Option.mem_toList.mp hmem
          refine ⟨KeyFile.storable_setKeyName_add _ hn key, fun version key' hget' => ?_⟩
          rw [KeyFile.getKeyName_setKeyName_add _ hn, ← hname]
          rw [KeyFile.get_add] at hget'
          split_ifs at hget'
          · cases hget'
            exact hgenuine bytes ⟨keyName, seckey, hdecrypted⟩ loadedFile hload _ _ hget
          · cases hget'

theorem decryptRepoKeysOf_from (secretKeys : List Bytes) (dirents : List Bytes) :
    Returns (· = r₀) (decryptRepoKeysOf env keyVersion secretKeys keysPath dirents) fun keyFiles _ =>
      AllFrom made keyFiles := by
  induction dirents with
  | nil => exact .pure fun _ _ _ hmem => by cases hmem
  | cons dirent dirents ih =>
    unfold decryptRepoKeysOf
    split
    · exact ih
    · rename_i keyName hname
      refine .bind ((decryptRepoKeyWith_from hgenuine (legalKeyName_of_dirent hname) _ _).staying
        (decryptRepoKeyWith_quiet _ _ _ _ _ _)) fun decrypted => .of_start fun r hr => ?_
      refine .bind (ih.start hr.1) fun rest => .pure fun _ hrest keyFile hmem => ?_
      rcases List.mem_append.mp hmem with hmem | hmem
      · exact hr.2 keyFile hmem
      · exact hrest keyFile hmem

theorem decryptRepoKeys_from (secretKeys : List Bytes) :
    Returns (· = r₀) (decryptRepoKeys env keyVersion secretKeys keysPath) fun keyFiles _ =>
      AllFrom made keyFiles := by
  refine (access_quiet _).andThen fun res => ?_
  split
  · exact .pure fun _ _ _ hmem => by cases hmem
  · exact (getDirectoryContents_quiet _).andThen fun _ => decryptRepoKeysOf_from hgenuine _ _

end

theorem getRepoKeysPath_returns (r₀ : Repo) : Returns (· = r₀) (getRepoKeysPath env) fun keysPath r =>
    r = r₀ ∧ ∃ statePath, repoStatePath env r₀.config = some statePath ∧ keysPath = statePath ++ str "/keys" := by
  refine .bind (R := fun statePath r => r = r₀ ∧ repoStatePath env r₀.config = some statePath) ?_ fun statePath =>
    .pure fun r hr => ⟨hr.1, statePath, hr.2, rfl⟩
  refine Triple.of_start fun w hw => ?_
  refine (getRepoStatePath_learns (s := w.seen)).weaken (fun _ he => he ▸ rfl) (fun statePath w' hw' => ?_)
    fun _ _ _ => trivial
  rw [← hw]
  exact ⟨congrArg Prod.fst hw'.1, hw'.2⟩

section
variable (hgenuine : ∀ bytes, Supplied env args r₀ bytes → Genuine made bytes)
include hgenuine

theorem unlockKeyFiles_from :
    Triple (Reading env r₀) (unlockKeyFiles env args)
      (fun res _ => ∀ keyFiles, res = some keyFiles → AllFrom made keyFiles) fun _ _ => True := by
  refine .ite (fun _ => ?_) fun hargs => ?_
  · refine (readSymmetricKeyFiles_supplied (List.Subset.refl args)).post fun res w h keyFiles he => ?_
    exact (h keyFiles he).allFrom hgenuine
  · refine Triple.pre (P := fun w => w.toRepo = r₀) ?_ fun w hw => hw.1
    change Returns (· = r₀) _ fun res _ => ∀ keyFiles, res = some keyFiles → AllFrom made keyFiles
    refine .bind (getRepoKeysPath_returns r₀) fun keysPath => .of_start fun r hr => ?_
    obtain ⟨rfl, statePath, hstate, rfl⟩ := hr
    refine gpgListSecretKeys_quiet.andThen fun _ => .bind (decryptRepoKeys_from (fun bytes hbytes =>
      hgenuine bytes (.gpg (not_not.mp hargs) hstate hbytes)) _) fun keyFiles => ?_
    split
    · exact (logLines_quiet _).andThen fun _ => .pure fun _ _ _ he => by cases he
    · exact .pure fun _ hfrom _ he => by cases he; exact hfrom

theorem unlock_keepsKeys : Triple (fun w => Reading env r₀ w ∧ KeysKept env gitDir made w.toRepo) (unlock env args)
    (fun _ w => KeysKept env gitDir made w.toRepo) fun _ w => KeysKept env gitDir made w.toRepo := by
  have hstatus : Maintains (fun w => Reading env r₀ w ∧ KeysKept env gitDir made w.toRepo) (getGitStatus env) :=
    ((getGitStatus_reading.triple fun s => s.1 = r₀ ∧ (s.2 = .ofBytes env.stdin ∨ s.2.good = false)).conj
      (getGitStatus_quiet.readsOnly.triple (KeysKept env gitDir made)))
  refine .bind (hstatus.weakenError fun _ _ he => he.2) fun _ => .ite (fun _ => ?_) fun _ => ?_
  · exact ((leave_quiet _ _).readsOnly.triple (KeysKept env gitDir made)).pre fun _ hw => hw.2
  · refine .bind (((unlockKeyFiles_from hgenuine).conj
      ((unlockKeyFiles_quiet args).readsOnly.triple (KeysKept env gitDir made))).weakenError fun _ _ he => he.2)
      fun res => ?_
    split
    · exact .pure fun _ hw => hw.2
    · rename_i keyFiles
      refine .of_start fun w hw => ?_
      refine Triple.pre (P := fun w => KeysKept env gitDir made w.toRepo) ?_ fun _ he => he ▸ hw.2
      refine Maintains.bind (installKeyFiles_keepsKeys (hw.1 keyFiles rfl)) fun files => ?_
      split
      · exact .pure _
      · exact checkOutFiles_keepsKeys _ _

end

/-! ### The key that `init` makes -/

/-- The operation in which `init` draws the key, after `git rev-parse` and `access`. -/
def initDraw : Nat := 2

/-- The key it makes of that, where `random_bytes` does not fail. -/
def drawnKey (env : Env) : Option Entry :=
  (env.draw initDraw).aesKey.bind fun aesKey => (env.draw initDraw).hmacKey.map fun hmacKey => ⟨0, aesKey, hmacKey⟩

section
variable {keyName : Option Bytes} {ops : Nat} {E : Exception → World → Prop}

theorem execCommand_ops (command : Command) :
    Triple (fun w => w.ops = ops) (execCommand env command) (fun _ w => w.ops = ops + 1) E := by
  rintro w rfl
  unfold execCommand
  dsimp only
  split_ifs
  · rfl
  · exact congrArg (· + 1) (Command.run_ops command w)

theorem getInternalKeyPath_ops (keyName : Option Bytes) :
    Triple (fun w => w.ops = ops) (getInternalKeyPath env keyName) (fun _ w => w.ops = ops + 1) fun _ _ => True := by
  refine .bind (.bind (.bind (execCommand_ops _) fun out => .bind (R := fun _ w => w.ops = ops + 1) ?_ fun _ => ?_)
    fun _ => .pure fun _ => id) fun _ => .pure fun _ => id
  · exact .ite (fun _ => .pure fun _ => id) fun _ => .throw fun _ _ => trivial
  · exact .pure fun _ => id

theorem access_ops (path : Bytes) : Triple (fun w => w.ops = ops) (access env path) (fun _ w => w.ops = ops + 1) E := by
  rintro w rfl
  unfold access syscall
  dsimp only
  split_ifs
  · rfl
  · cases hstat : w.fs.stat env.cwd path with
    | error e => rfl
    | ok node => rfl

theorem KeyFile.generate_empty {draw : Draw} {keyFile : KeyFile}
    (h : (KeyFile.empty.setKeyName keyName).generate draw = (keyFile, .ok ())) :
    ∃ aesKey hmacKey, draw.aesKey = some aesKey ∧ draw.hmacKey = some hmacKey ∧
      keyFile = (KeyFile.empty.setKeyName keyName).add ⟨0, aesKey, hmacKey⟩ := by
  obtain ⟨aesKey, hmacKey⟩ := draw
  cases aesKey with
  | none => cases h
  | some aesKey =>
    cases hmacKey with
    | none => cases h
    | some hmacKey =>
      cases h
      exact ⟨aesKey, hmacKey, rfl, rfl, rfl⟩

/-- The key file that `init` generates holds the key it draws. -/
private theorem generateKey_drawn :
    Triple (fun w => w.ops = initDraw) (generateKey env (KeyFile.empty.setKeyName keyName))
    (fun keyFile w => initDraw < w.ops ∧
      ∃ key, drawnKey env = some key ∧ keyFile = (KeyFile.empty.setKeyName keyName).add key) fun _ _ => True := by
  refine .bind (R := fun draw w => draw = env.draw initDraw ∧ initDraw < w.ops) ?_ fun draw => ?_
  · rintro w hw
    exact ⟨congrArg env.draw hw, hw ▸ Nat.lt_succ_self _⟩
  · split
    · rename_i keyFile hgenerate
      refine .pure fun w ⟨hdraw, hops⟩ => ⟨hops, ?_⟩
      obtain ⟨aesKey, hmacKey, haes, hhmac, rfl⟩ := KeyFile.generate_empty hgenerate
      rw [hdraw] at haes hhmac
      exact ⟨⟨0, aesKey, hmacKey⟩, by rw [drawnKey, haes, hhmac]; rfl, rfl⟩
    · exact .throw fun _ _ => trivial

/-- The keys are kept, and the operations counted. -/
theorem KeepsKeys.counted {α : Type} {m : Action α} {P : World → Prop} {R : α → World → Prop}
    (h : KeepsKeys env gitDir made m) (hcount : Triple P m R fun _ _ => True) :
    Triple (fun w => P w ∧ KeysKept env gitDir made w.toRepo) m
      (fun a w => R a w ∧ KeysKept env gitDir made w.toRepo) fun _ w => KeysKept env gitDir made w.toRepo :=
  (hcount.conj h).weakenError fun _ _ he => he.2

/-- The key that an `init` for the name makes. -/
def drawnFor (env : Env) (keyName : Option Bytes) : MadeKeys := fun name =>
  {key | name = keyName ∧ drawnKey env = some key}

/-- The same if it has come to that. -/
def drawnBy (env : Env) (keyName : Option Bytes) (w : World) : MadeKeys := fun name =>
  {key | initDraw < w.ops ∧ key ∈ drawnFor env keyName name}

/-- A key that has been drawn counts as made, as no operation is taken back. -/
theorem KeepsKeys.drawn {α : Type} {m : Action α} (h : KeepsKeys env gitDir (made ⊔ drawnFor env keyName) m)
    (hsteps : Steps env Set.univ m) :
    Triple (fun w => initDraw < w.ops ∧ KeysKept env gitDir made w.toRepo) m
      (fun _ w => KeysKept env gitDir (made ⊔ drawnBy env keyName w) w.toRepo)
      fun _ w => KeysKept env gitDir (made ⊔ drawnBy env keyName w) w.toRepo := by
  have hlate {w : World} (hw : (Encrypted Set.univ w.trace ∧ initDraw < w.ops) ∧
      KeysKept env gitDir (made ⊔ drawnFor env keyName) w.toRepo) :
      KeysKept env gitDir (made ⊔ drawnBy env keyName w) w.toRepo :=
    hw.2.mono (sup_le_sup_left (fun _ _ hkey => ⟨hw.1.2, hkey⟩) made)
  refine ((hsteps.maintains (initDraw + 1)).conj h).weaken ?_ (fun _ _ => hlate) fun _ _ => hlate
  rintro w ⟨hops, hkept⟩
  exact ⟨⟨fun _ _ _ _ _ => trivial, hops⟩, hkept.mono le_sup_left⟩

theorem initKey_keepsKeys (hn : LegalKeyName keyName) :
    Triple (fun w => w.ops = 0 ∧ KeysKept env gitDir made w.toRepo) (initKey env keyName)
      (fun _ w => KeysKept env gitDir (made ⊔ drawnBy env keyName w) w.toRepo)
      fun _ w => KeysKept env gitDir (made ⊔ drawnBy env keyName w) w.toRepo := by
  have hlog (lines : List Bytes) : Triple (fun w : World => w.ops = initDraw) (logLines lines)
      (fun _ w => w.ops = initDraw) fun _ _ => True := fun _ => id
  have hearly {w : World} (h : KeysKept env gitDir made w.toRepo) :
      KeysKept env gitDir (made ⊔ drawnBy env keyName w) w.toRepo := h.mono le_sup_left
  have hpath := (@getInternalKeyPath_ops env 0 keyName).conj
    (getInternalKeyPath_preserves (fun s => KeysKept env gitDir made s.1) keyName)
  refine .bind (hpath.weakenError fun _ _ he => hearly he.2) fun path => .of_start fun w hw => ?_
  obtain ⟨hops, hkept, rfl⟩ := hw
  refine Triple.pre (P := fun w => w.ops = 1 ∧ KeysKept env gitDir made w.toRepo) ?_ fun _ he => he ▸ ⟨hops, hkept⟩
  refine .bind ((KeepsKeys.counted (access_quiet _).keepsKeys (access_ops _)).weakenError fun _ _ => hearly) fun res => ?_
  split
  · exact ((leave_quiet _ _).readsOnly.triple (KeysKept env gitDir made)).weaken (fun _ hw => hw.2)
      (fun _ _ => hearly) fun _ _ => hearly
  · refine .bind ((KeepsKeys.counted (logLines_quiet _).keepsKeys (hlog _)).weakenError fun _ _ => hearly) fun _ =>
      .bind ((KeepsKeys.counted (generateKey_quiet _).keepsKeys generateKey_drawn).weakenError fun _ _ => hearly)
        fun keyFile => .of_start fun w hw => ?_
    obtain ⟨⟨hops, key, hkey, rfl⟩, hkept⟩ := hw
    have hfrom : ((KeyFile.empty.setKeyName keyName).add key).From (made ⊔ drawnFor env keyName) := by
      intro version key' hget
      rw [KeyFile.get_add] at hget
      rw [KeyFile.getKeyName_setKeyName_add _ hn]
      split_ifs at hget
      · cases hget
        exact .inr ⟨rfl, hkey⟩
      · cases hget
    have hname := KeyFile.getKeyName_setKeyName_add KeyFile.empty hn key
    refine Triple.pre (KeepsKeys.drawn ?_ ?_) fun _ he => he ▸ ⟨hops, hkept⟩
    · refine Maintains.bind (installKeyFile_keepsKeys hn fun bytes hb => ?_) fun ok => .ite (fun _ => .pure _) fun _ =>
        .bind (configureGitFilters_keepsKeys _) fun _ => .pure _
      have hfits := hfrom.fits (KeyFile.storable_setKeyName_add _ hn key) hb
      rwa [hname] at hfits
    · exact .bind (installKeyFile_steps _ _) fun ok =>
        .ite (.pure _) (.bind (configureGitFilters_steps _) fun _ => .pure _)

end

/-- `init` with a key file hands its arguments to `unlock`. -/
def initUnlockArgs (args : List Bytes) : Option (List Bytes) :=
  match parseOptions (keyNameOptions fun value _ => some value) (none : Option Bytes) args with
  | .ok (none, [_]) => some args
  | _ => none

/-- The name that `init` is to make a key for. -/
def initKeyName (args : List Bytes) : Option (Option Bytes) :=
  match parseOptions (keyNameOptions fun value _ => some value) (none : Option Bytes) args with
  | .ok (keyName, []) => some keyName
  | _ => none

/-- The key that an `init` with these arguments has made. -/
def initDrawn (env : Env) (args : List Bytes) (w : World) : MadeKeys :=
  (initKeyName args).elim ⊥ fun keyName => drawnBy env keyName w

theorem init_keepsKeys
    (hgenuine : ∀ unlocked ∈ initUnlockArgs args, ∀ bytes, Supplied env unlocked r₀ bytes → Genuine made bytes) :
    Triple (fun w => w.ops = 0 ∧ Reading env r₀ w ∧ KeysKept env gitDir made w.toRepo) (init env args)
      (fun _ w => KeysKept env gitDir (made ⊔ initDrawn env args w) w.toRepo)
      fun _ w => KeysKept env gitDir (made ⊔ initDrawn env args w) w.toRepo := by
  have hearly {w : World} (h : KeysKept env gitDir made w.toRepo) :
      KeysKept env gitDir (made ⊔ initDrawn env args w) w.toRepo := h.mono le_sup_left
  unfold init
  split
  · exact .throw fun _ hw => hearly hw.2.2
  · rename_i keyName rest hparse
    refine .ite (fun hfile => ?_) fun _ => .ite (fun _ => ?_) fun hrest => ?_
    · obtain ⟨rfl, hlength⟩ := hfile
      obtain ⟨keyFileName, rfl⟩ := List.length_eq_one_iff.mp hlength
      have hunlocked : initUnlockArgs args = some args := by rw [initUnlockArgs, hparse]
      have hlog (lines : List Bytes) :
          Maintains (fun w => Reading env r₀ w ∧ KeysKept env gitDir made w.toRepo) (logLines lines) := fun _ => id
      refine .bind ((hlog _).weaken (fun _ hw => hw.2) (fun _ _ => id) fun _ _ hw => hearly hw.2) fun _ => ?_
      exact (unlock_keepsKeys (hgenuine args hunlocked)).weaken (fun _ => id) (fun _ _ => hearly) fun _ _ => hearly
    · exact ((leave_quiet _ _).readsOnly.triple (KeysKept env gitDir made)).weaken (fun _ hw => hw.2.2)
        (fun _ _ => hearly) fun _ _ => hearly
    · obtain rfl := not_not.mp hrest
      have hname : initKeyName args = some keyName := by rw [initKeyName, hparse]
      have hdrawn (w : World) : initDrawn env args w = drawnBy env keyName w := by rw [initDrawn, hname]; rfl
      simp only [hdrawn]
      refine Triple.pre (P := fun w => w.ops = 0 ∧ KeysKept env gitDir made w.toRepo) ?_ fun _ hw => ⟨hw.1, hw.2.2⟩
      cases keyName with
      | none => exact initKey_keepsKeys fun _ hname => by cases hname
      | some keyName =>
        dsimp only
        unfold validateKeyNameOrThrow
        split
        · exact initKey_keepsKeys fun _ hname => by cases hname; assumption
        · exact .bind (R := fun _ _ => False) (.throw fun _ hw => hw.2.mono le_sup_left) fun _ _ hw => hw.elim

end GitCrypt
