import GitCrypt.ConfiguredFilters
import GitCrypt.FilterRoundTrip
import GitCrypt.KeyProcesses

/-! Filters that run in two repositories whose keys of a name were all made once: what one encrypts
the other decrypts, or it writes nothing. -/
namespace GitCrypt
open Iostream Posix FileSystem Prog
variable {P : Primitives} {gitDir : Location} {made : MadeKeys} {keyName : Option Bytes} {plain : Bytes}

/-! ### Decryption -/

/-- The whole plaintext is written and the exit status is 0, or nothing is written and it is not. -/
def FilterRun.AllOrNothing (run : FilterRun) (plain : Bytes) : Prop :=
  run.ending = .ok 0 ∧ run.cout.written = plain ∨ run.ending = .ok 1 ∧ run.cout.written = []

/-- The same of a command. -/
def AllOrNothing (plain : Bytes) (status : Nat) (w : World) : Prop :=
  status = 0 ∧ w.cout.written = plain ∨ status ≠ 0 ∧ w.cout.written = []

theorem FilterRun.AllOrNothing.perform {run : FilterRun} (h : run.AllOrNothing plain) {E : Exception → World → Prop} :
    Triple (fun w => w.cout = {}) run.perform (GitCrypt.AllOrNothing plain) E := by
  intro w hw
  have hcout : (w.cout.append run.cout).written = run.cout.written := by
    rw [hw]
    rfl
  rcases h with ⟨hending, hwritten⟩ | ⟨hending, hwritten⟩
  · rw [FilterRun.perform, hending]
    exact .inl ⟨rfl, hcout.trans hwritten⟩
  · rw [FilterRun.perform, hending]
    exact .inr ⟨one_ne_zero, hcout.trans hwritten⟩

section
variable {key : Entry} {keyFile : KeyFile}

/-- Without the version that decryption asks for, nothing is written. -/
private theorem decryptOrCopy_of_get_none (warning : List String) (hget : keyFile.get decryptKeyVersion = none) :
    (decryptOrCopy warning P keyFile (.ofBytes (encryptedBlob P key plain))).AllOrNothing plain := by
  have hmagic : (encryptedBlob P key plain).take 10 = fileMagic := by
    rw [encryptedBlob, List.append_assoc, List.take_left' length_fileMagic]
  have hlen : headerLen ≤ (encryptedBlob P key plain).length := by
    rw [length_encryptedBlob, headerLen, nonceLen]
    omega
  rw [decryptOrCopy_blob warning P keyFile hlen hmagic, decryptFileToStdout, hget]
  exact .inr ⟨rfl, rfl⟩

/-- A key file with no other key than the one that the blob is encrypted with. -/
private theorem decryptOrCopy_allOrNothing (warning : List String) (hfrom : keyFile.From made)
    (hone : (made keyFile.getKeyName).Subsingleton) (hkey : key ∈ made keyFile.getKeyName)
    (hlt : plain.length < 2 ^ 32) :
    (decryptOrCopy warning P keyFile (.ofBytes (encryptedBlob P key plain))).AllOrNothing plain := by
  cases hget : keyFile.get decryptKeyVersion with
  | some key' =>
    obtain rfl : key' = key := hone (hfrom _ _ hget) hkey
    exact .inl (decryptOrCopy_encryptedBlob warning P hget hlt)
  | none => exact decryptOrCopy_of_get_none warning hget

end

/-! ### Processes -/

section
variable {p : Process} {s : Repo × GitState}

/-- The filters are given the key file in the place of the name, or throw before they write. -/
theorem loadKey_triple : Triple (· = s.1.start p.invoked.env) (loadKey p.invoked.env keyName none none)
    (fun keyFile w => (w.toRepo = s.1 ∧ w.cin = .ofBytes p.invoked.env.stdin ∧ w.cout = {}) ∧
      installedKeyFile p.invoked.env keyName s.1.fs = some keyFile)
    fun _ w => w.cout = {} ∧ (Reliable p.invoked.env → installedKeyFile p.invoked.env keyName s.1.fs = none) := by
  refine ((loadKey_keepsStreams keyName none none).triple
    fun streams => streams = (.ofBytes p.invoked.env.stdin, {})).conj
      (loadKey_learns (s := (s.1.start p.invoked.env).seen) keyName) |>.weaken ?_ ?_ ?_
  · rintro _ rfl
    exact ⟨rfl, rfl⟩
  · rintro keyFile w ⟨hstreams, hseen, hinstalled⟩
    obtain ⟨hcin, hcout⟩ := Prod.mk.inj hstreams
    exact ⟨⟨congrArg Prod.fst hseen, hcin, hcout⟩, hinstalled⟩
  · exact fun e w hw => ⟨congrArg Prod.snd hw.1, hw.2.2⟩

section
variable {Q : Nat → World → Prop} {E : Exception → World → Prop}
  (hthrow : ∀ e w, w.cout = {} →
    (Reliable p.invoked.env → installedKeyFile p.invoked.env keyName s.1.fs = none) → E e w)
include hthrow

theorem filterStdin_triple {args : List Bytes} (hparse : parsePlumbingOptions args = .ok (⟨keyName, none⟩, []))
    (usage : Bytes) {filter : KeyFile → IStream → FilterRun}
    (h : ∀ keyFile, installedKeyFile p.invoked.env keyName s.1.fs = some keyFile →
      Triple (fun w => w.cout = {}) (filter keyFile (.ofBytes p.invoked.env.stdin)).perform Q E) :
    Triple (· = s.1.start p.invoked.env) (filterStdin p.invoked.env usage filter args) Q E := by
  unfold filterStdin
  rw [hparse]
  refine .bind (loadKey_triple.weakenError fun e w hw => hthrow e w hw.1 hw.2) fun keyFile w hw => ?_
  obtain ⟨⟨-, hcin, hcout⟩, hinstalled⟩ := hw
  have hget (k : World → Action Nat) : (get >>= k) w = k w w := rfl
  rw [hget, hcin]
  exact h keyFile hinstalled w hcout

theorem diff_triple {args : List Bytes} {filename blob : Bytes}
    (hparse : parsePlumbingOptions args = .ok (⟨keyName, none⟩, [filename]))
    (hinput : s.1.fs.readFile p.invoked.env.cwd filename = .ok blob)
    (hfail : ∀ status w, status ≠ 0 → w.cout = {} → ¬ Reliable p.invoked.env → Q status w)
    (h : ∀ keyFile, installedKeyFile p.invoked.env keyName s.1.fs = some keyFile →
      Triple (fun w => w.cout = {}) (diffWith P keyFile (.ofBytes blob)).perform Q E) :
    Triple (· = s.1.start p.invoked.env) (diff P p.invoked.env args) Q E := by
  unfold diff
  rw [hparse]
  refine .bind (loadKey_triple.weakenError fun e w hw => hthrow e w hw.1 hw.2) fun keyFile => .of_start fun w hw => ?_
  obtain ⟨⟨hrepo, -, hcout⟩, hinstalled⟩ := hw
  have hopen : Triple (· = w) (syscall p.invoked.env (.read filename) fun fs =>
      (fs.readFile p.invoked.env.cwd filename).map (·, fs))
      (fun res w => w.cout = {} ∧ (res = .ok blob ∨ ¬ Reliable p.invoked.env ∧ res = .error .eio)) E := by
    refine (((syscall_keepsStreams _ _).triple fun streams => streams.2 = {}).conj
      (syscall_query_seen (s := w.seen) (E := E) fun _ => rfl)).weaken ?_ (fun res w' hw' => ⟨hw'.1, ?_⟩)
        fun _ _ he => he.2
    · rintro _ rfl
      exact ⟨hcout, rfl⟩
    · rw [← hinput, ← hrepo]
      exact hw'.2.2
  refine .bind hopen fun res => ?_
  rintro w ⟨hcout, rfl | ⟨hreliable, rfl⟩⟩
  · exact h keyFile hinstalled w hcout
  · exact hfail 1 _ one_ne_zero hcout hreliable

end

/-- The process is a filter with the key of a name, in any spelling of its options, and these
operands. -/
def Process.Filters (p : Process) (command : Bytes) (keyName : Option Bytes) (operands : List Bytes) : Prop :=
  ∃ args, commandLine p.args = some (command, args) ∧ parsePlumbingOptions args = .ok (⟨keyName, none⟩, operands)

/-- A process that decrypts a blob for a name: `smudge` on its standard input, or `diff` in a file. -/
inductive Process.Decrypts (q : Process) (r : Repo) (keyName : Option Bytes) (blob : Bytes) : Prop
  | smudge (hfilters : q.Filters (str "smudge") keyName []) (hinput : q.invoked.env.stdin = blob)
  | diff {filename : Bytes} (hfilters : q.Filters (str "diff") keyName [filename])
    (hinput : r.fs.readFile q.invoked.env.cwd filename = .ok blob)

/-- It does what either filter does with the key file in the place of the name, or writes nothing. -/
theorem Process.decrypts_triple {blob : Bytes} {Q : Nat → World → Prop} {E : Exception → World → Prop}
    (hdecrypts : p.Decrypts s.1 keyName blob)
    (hthrow : ∀ e w, w.cout = {} →
      (Reliable p.invoked.env → installedKeyFile p.invoked.env keyName s.1.fs = none) → E e w)
    (hfail : ∀ status w, status ≠ 0 → w.cout = {} → ¬ Reliable p.invoked.env → Q status w)
    (h : ∀ keyFile warning, installedKeyFile p.invoked.env keyName s.1.fs = some keyFile →
      Triple (fun w => w.cout = {}) (decryptOrCopy warning P keyFile (.ofBytes blob)).perform Q E) :
    ∃ command args m, commandLine p.args = some (command, args) ∧
      handler P p.argv0 p.invoked command args = some (onFst m) ∧ Triple (· = s.1.start p.invoked.env) m Q E := by
  cases hdecrypts with
  | smudge hfilters hinput =>
    obtain ⟨args, hc, hparse⟩ := hfilters
    refine ⟨str "smudge", args, smudge P p.invoked.env args, hc, rfl, ?_⟩
    refine filterStdin_triple hthrow hparse _ fun keyFile hinstalled => ?_
    rw [hinput]
    exact h keyFile _ hinstalled
  | diff hfilters hinput =>
    obtain ⟨args, hc, hparse⟩ := hfilters
    refine ⟨str "diff", args, diff P p.invoked.env args, hc, rfl, ?_⟩
    exact diff_triple hthrow hparse hinput hfail fun keyFile hinstalled => h keyFile _ hinstalled

/-- A `clean` that ends with 0 has encrypted with the latest key in the place of the name. -/
theorem Process.clean_runs (hfilters : p.Filters (str "clean") keyName []) (hzero : (p.run P s).1 = .ok 0) :
    ∃ keyFile key, installedKeyFile p.invoked.env keyName s.1.fs = some keyFile ∧ keyFile.getLatest = some key ∧
      p.invoked.env.stdin.length < 2 ^ 32 ∧ (p.run P s).2.1.cout.written = encryptedBlob P key p.invoked.env.stdin := by
  obtain ⟨args, hc, hparse⟩ := hfilters
  have hclean : Triple (· = s.1.start p.invoked.env) (clean P p.invoked.env args)
      (fun status w => status = 0 → ∃ keyFile key, installedKeyFile p.invoked.env keyName s.1.fs = some keyFile ∧
        keyFile.getLatest = some key ∧ p.invoked.env.stdin.length < 2 ^ 32 ∧
          w.cout.written = encryptedBlob P key p.invoked.env.stdin) fun _ _ => True := by
    refine filterStdin_triple (fun _ _ _ _ => trivial) hparse _ fun keyFile hinstalled w hw => ?_
    unfold FilterRun.perform
    split
    · rename_i status w' hrun
      obtain ⟨hending, rfl⟩ := Prod.mk.inj hrun
      rintro rfl
      obtain ⟨key, hlatest, hlt⟩ := cleanWith_ok hending
      refine ⟨keyFile, key, hinstalled, hlatest, hlt, ?_⟩
      rw [hw]
      exact (cleanWith_of_lt P hlatest hlt).2
    · trivial
  rcases p.ends P hc rfl hclean with ⟨status, hstatus, hencrypts⟩ | ⟨hne, -⟩
  · rw [hzero] at hstatus
    cases hstatus
    exact hencrypts rfl
  · exact absurd hzero hne

/-- Where the key that the blob is encrypted with lies in the place of the name, and nothing fails. -/
theorem Process.decrypts_installed {key : Entry} {keyFile : KeyFile}
    (hdecrypts : p.Decrypts s.1 keyName (encryptedBlob P key plain)) (hlt : plain.length < 2 ^ 32)
    (hinstalled : installedKeyFile p.invoked.env keyName s.1.fs = some keyFile)
    (hget : keyFile.get decryptKeyVersion = some key) (hreliable : Reliable p.invoked.env) :
    (p.run P s).1 = .ok 0 ∧ (p.run P s).2.1.cout.written = plain := by
  have hthrow : ∀ (e : Exception) (w : World), w.cout = {} →
      (Reliable p.invoked.env → installedKeyFile p.invoked.env keyName s.1.fs = none) → False := by
    intro e w _ hnone
    rw [hnone hreliable] at hinstalled
    cases hinstalled
  have hperform (keyFile' : KeyFile) (warning : List String)
      (hinstalled' : installedKeyFile p.invoked.env keyName s.1.fs = some keyFile') :
      Triple (fun w => w.cout = {}) (decryptOrCopy warning P keyFile' (.ofBytes (encryptedBlob P key plain))).perform
        (fun status w => status = 0 ∧ w.cout.written = plain) fun _ _ => False := by
    obtain rfl : keyFile' = keyFile := Option.some.inj (hinstalled'.symm.trans hinstalled)
    obtain ⟨hending, hwritten⟩ := decryptOrCopy_encryptedBlob warning P hget hlt
    intro w hw
    rw [FilterRun.perform, hending]
    refine ⟨rfl, ?_⟩
    rw [hw]
    exact hwritten
  obtain ⟨command, args, m, hc, hm, hrun⟩ := Process.decrypts_triple hdecrypts hthrow
    (fun status w _ _ hfails => absurd hreliable hfails) hperform
  rcases p.ends P hc hm hrun with ⟨status, hstatus, rfl, hwritten⟩ | ⟨-, e, w, clog, hfalse, -⟩
  · exact ⟨hstatus, hwritten⟩
  · exact hfalse.elim

end

section
variable {key : Entry} {p : Process} {s : Repo × GitState} (hn : LegalKeyName keyName)
  (hkept : KeysKept p.invoked.env gitDir made s.1)
include hn hkept

/-- What `clean` writes is encrypted with a key that was made for the name. -/
theorem Process.clean_encrypts (hfilters : p.Filters (str "clean") keyName []) (hzero : (p.run P s).1 = .ok 0) :
    ∃ key ∈ made keyName, p.invoked.env.stdin.length < 2 ^ 32 ∧
      (p.run P s).2.1.cout.written = encryptedBlob P key p.invoked.env.stdin := by
  obtain ⟨keyFile, key, hinstalled, hlatest, hencrypted⟩ := Process.clean_runs hfilters hzero
  obtain ⟨-, hname, hfrom⟩ := hkept.installed hn hinstalled
  exact ⟨key, hname ▸ hfrom _ _ (KeyFile.getLatest_eq_some.mp hlatest).1, hencrypted⟩

theorem Process.decrypts_allOrNothing (hone : (made keyName).Subsingleton) (hkey : key ∈ made keyName)
    (hlt : plain.length < 2 ^ 32) (hdecrypts : p.Decrypts s.1 keyName (encryptedBlob P key plain)) :
    (p.run P s).1 = .ok 0 ∧ (p.run P s).2.1.cout.written = plain ∨
      (p.run P s).1 ≠ .ok 0 ∧ (p.run P s).2.1.cout.written = [] := by
  have hperform (keyFile : KeyFile) (warning : List String)
      (hinstalled : installedKeyFile p.invoked.env keyName s.1.fs = some keyFile) :
      Triple (fun w => w.cout = {}) (decryptOrCopy warning P keyFile (.ofBytes (encryptedBlob P key plain))).perform
        (AllOrNothing plain) fun _ w => w.cout = {} := by
    obtain ⟨-, hname, hfrom⟩ := hkept.installed hn hinstalled
    exact (decryptOrCopy_allOrNothing warning hfrom (hname ▸ hone) (hname ▸ hkey) hlt).perform
  obtain ⟨command, args, m, hc, hm, hrun⟩ := Process.decrypts_triple hdecrypts (fun _ _ hcout _ => hcout)
    (fun status w hne hcout _ => .inr ⟨hne, by rw [hcout]⟩) hperform
  rcases p.ends P hc hm hrun with ⟨status, hstatus, hafter⟩ | ⟨hne, e, w, clog, hcout, hafter⟩
  · rw [hstatus]
    exact hafter.imp (fun h => ⟨by rw [h.1], h.2⟩) fun h => ⟨by simpa using h.1, h.2⟩
  · refine .inr ⟨hne, ?_⟩
    rw [hafter]
    exact congrArg OStream.written hcout

end

end GitCrypt
