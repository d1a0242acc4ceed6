import GitCrypt.Library.CommandLine
import GitCrypt.Util

/-! The command line of coprocess-win32.cpp, and what the program that is started makes of it. -/
namespace GitCrypt
open Windows.CommandLine

/-! ### Quoting -/

/-- The backslashes at the front, counted in an `unsigned int`, and what comes after them. -/
def countBackslashes : UInt32 → Bytes → UInt32 × Bytes
  | n, [] => (n, [])
  | n, c :: p => if c = 92 then countBackslashes (n + 1) p else (n, c :: p)

private theorem length_countBackslashes_le (n : UInt32) (p : Bytes) : (countBackslashes n p).2.length ≤ p.length := by
  induction p generalizing n with
  | nil => exact le_rfl
  | cons c p ih =>
    rw [countBackslashes]
    split_ifs
    · exact (ih (n + 1)).trans (Nat.le_succ _)
    · exact le_rfl

private theorem length_countBackslashes_lt {c : UInt8} (h : c = 92) (n : UInt32) (p : Bytes) :
    (countBackslashes n (c :: p)).2.length < (c :: p).length := by
  rw [countBackslashes, if_pos h]
  exact Nat.lt_succ_of_le (length_countBackslashes_le (n + 1) p)

/-- What the loop of `escape_cmdline_argument` appends. -/
def escapeBytes : Bytes → Bytes
  | [] => []
  | c :: p =>
    if c = 34 then 92 :: 34 :: escapeBytes p
    else if _h : c = 92 then
      let numBackslashes := (countBackslashes 0 (c :: p)).1
      let rest := (countBackslashes 0 (c :: p)).2
      let numBackslashes :=
        if rest = [] ∨ rest.head? = some 34 then numBackslashes * 2 else numBackslashes
      List.replicate numBackslashes.toNat 92 ++ escapeBytes rest
    else c :: escapeBytes p
termination_by p => p.length
decreasing_by
  · simp
  · exact length_countBackslashes_lt _h 0 p
  · simp

def escapeCmdlineArgument (cmdline arg : Bytes) : Bytes := cmdline ++ [34] ++ escapeBytes arg ++ [34]

def formatCmdline : List Bytes → Bytes
  | [] => []
  | arg :: command => command.foldl (fun cmdline arg => escapeCmdlineArgument (cmdline ++ [32]) arg)
      (escapeCmdlineArgument [] arg)

private theorem formatCmdline_cons (arg : Bytes) (command : List Bytes) : formatCmdline (arg :: command) =
    34 :: (escapeBytes arg ++ 34 :: command.flatMap fun arg => 32 :: 34 :: (escapeBytes arg ++ [34])) := by
  have hloop (cmdline : Bytes) : command.foldl (fun cmdline arg => escapeCmdlineArgument (cmdline ++ [32]) arg)
      cmdline = cmdline ++ command.flatMap fun arg => 32 :: 34 :: (escapeBytes arg ++ [34]) := by
    induction command generalizing cmdline with
    | nil => simp
    | cons arg command ih =>
      rw [List.foldl_cons, ih, List.flatMap_cons]
      simp [escapeCmdlineArgument]
  rw [formatCmdline, hloop]
  simp [escapeCmdlineArgument]

/-! ### What is read back -/

/-- How many backslashes the counter can tell apart where this follows them: their number is
doubled before a quote and at the end. -/
def backslashLimit (next : Option UInt8) : Nat := if next = none ∨ next = some 34 then 2 ^ 31 else 2 ^ 32

/-- The argument as it is read back, after `n` backslashes. -/
def shortenedFrom : Nat → Bytes → Bytes
  | n, [] => List.replicate (n % backslashLimit none) 92
  | n, c :: p =>
    if c = 92 then shortenedFrom (n + 1) p
    else List.replicate (n % backslashLimit (some c)) 92 ++ c :: shortenedFrom 0 p

/-- The argument with every run of backslashes as short as the counter makes it. -/
def shortened (arg : Bytes) : Bytes := shortenedFrom 0 arg

/-- The runs of backslashes, one before each other byte and one at the end, with the byte that
follows. -/
def backslashRuns : Nat → Bytes → List (Nat × Option UInt8)
  | n, [] => [(n, none)]
  | n, c :: p => if c = 92 then backslashRuns (n + 1) p else (n, some c) :: backslashRuns 0 p

/-- Every run of backslashes is short enough for the counter. -/
def CountsBackslashes (arg : Bytes) : Prop := ∀ run ∈ backslashRuns 0 arg, run.1 < backslashLimit run.2

private theorem backslashLimit_pos (next : Option UInt8) : 0 < backslashLimit next := by
  unfold backslashLimit
  split_ifs <;> decide

theorem shortenedFrom_of_head {rest : Bytes} (h : rest.head? ≠ some 92) (n : Nat) :
    shortenedFrom n rest = List.replicate (n % backslashLimit rest.head?) 92 ++ shortened rest := by
  cases rest with
  | nil => simp [shortened, shortenedFrom]
  | cons c rest =>
    have hc : c ≠ 92 := fun he => h (by rw [he]; rfl)
    simp [shortened, shortenedFrom, hc]

/-- The counter, and that nothing but backslashes has been passed over. -/
theorem countBackslashes_eq (n : UInt32) (p : Bytes) : ∃ k,
    p = List.replicate k 92 ++ (countBackslashes n p).2 ∧ (countBackslashes n p).1 = n + UInt32.ofNat k ∧
      (countBackslashes n p).2.head? ≠ some 92 ∧
      ∀ m, shortenedFrom m p = shortenedFrom (m + k) (countBackslashes n p).2 := by
  induction p generalizing n with
  | nil => exact ⟨0, rfl, by simp [countBackslashes], by simp [countBackslashes], fun m => rfl⟩
  | cons c p ih =>
    by_cases hc : c = 92
    · obtain ⟨k, hp, hcount, hhead, hshort⟩ := ih (n + 1)
      subst hc
      rw [countBackslashes, if_pos rfl]
      refine ⟨k + 1, ?_, ?_, hhead, fun m => ?_⟩
      · rw [List.replicate_succ, List.cons_append, ← hp]
      · rw [hcount, UInt32.add_assoc, UInt32.ofNat_add, UInt32.add_comm 1]
        rfl
      · rw [shortenedFrom, if_pos rfl, hshort, Nat.add_right_comm, Nat.add_assoc]
    · rw [countBackslashes, if_neg hc]
      exact ⟨0, rfl, by simp, by simpa using hc, fun m => rfl⟩

private theorem escapeBytes_quote (p : Bytes) : escapeBytes (34 :: p) = 92 :: 34 :: escapeBytes p := by
  rw [escapeBytes, if_pos rfl]

private theorem escapeBytes_literal {c : UInt8} (hquote : c ≠ 34) (hbackslash : c ≠ 92) (p : Bytes) :
    escapeBytes (c :: p) = c :: escapeBytes p := by
  rw [escapeBytes, if_neg hquote, dif_neg hbackslash]

/-- Doubled backslashes before a quote or the end are read as half as many. -/
private theorem splitFrom_doubled {rest : Bytes} (h : rest = [] ∨ rest.head? = some 34) (m : Nat) (word tail : Bytes) :
    splitFrom true (2 * m) (some word) (escapeBytes rest ++ 34 :: tail) =
      splitFrom true 0 (some (word ++ List.replicate m 92)) (escapeBytes rest ++ 34 :: tail) := by
  have hnone (word s : Bytes) := splitFrom_even_quote true 0 word s
  have hone (word s : Bytes) := splitFrom_odd_quote true 0 word s
  simp only [Nat.mul_zero, Nat.zero_add, List.replicate_zero, List.append_nil] at hnone hone
  have hpair (n : Nat) (word s : Bytes) : splitFrom true n (some word) (92 :: 34 :: s) =
      splitFrom true (n + 1) (some word) (34 :: s) := splitFrom_backslashes true n 1 word (34 :: s)
  rcases rest with _ | ⟨c, p⟩
  · rw [escapeBytes, List.nil_append, splitFrom_even_quote, hnone]
  · obtain rfl : c = 34 := by simpa using h
    rw [escapeBytes_quote, List.cons_append, List.cons_append, hpair, splitFrom_odd_quote, hpair, Nat.zero_add, hone]

/-- Before any other byte they stand for themselves. -/
private theorem splitFrom_undoubled {rest : Bytes} (h : ¬ (rest = [] ∨ rest.head? = some 34))
    (hhead : rest.head? ≠ some 92)
    (n : Nat) (word tail : Bytes) :
    splitFrom true n (some word) (escapeBytes rest ++ 34 :: tail) =
      splitFrom true 0 (some (word ++ List.replicate n 92)) (escapeBytes rest ++ 34 :: tail) := by
  obtain ⟨hne, hquote⟩ := not_or.mp h
  obtain ⟨c, p, rfl⟩ := List.exists_cons_of_ne_nil hne
  have hc : c ≠ 34 := fun he => hquote (by rw [he]; rfl)
  have hc' : c ≠ 92 := fun he => hhead (by rw [he]; rfl)
  rw [escapeBytes_literal hc hc', List.cons_append, splitFrom_literal hc' hc, splitFrom_literal hc' hc]
  simp

private theorem toNat_doubled (k : Nat) : (UInt32.ofNat k * 2).toNat = 2 * (k % 2 ^ 31) := by
  rw [UInt32.toNat_mul, UInt32.toNat_ofNat', show (2 : UInt32).toNat = 2 from rfl]
  omega

/-- Inside its quotes an argument is read back shortened. -/
private theorem splitFrom_escapeBytes (arg word tail : Bytes) :
    splitFrom true 0 (some word) (escapeBytes arg ++ 34 :: tail) =
      splitFrom false 0 (some (word ++ shortened arg)) tail := by
  fun_induction escapeBytes arg generalizing word with
  | case1 =>
    have hquote := splitFrom_even_quote true 0 word tail
    rwa [Nat.mul_zero, List.replicate_zero] at hquote
  | case2 p ih =>
    have hone := splitFrom_odd_quote true 0 word (escapeBytes p ++ 34 :: tail)
    have hpair := splitFrom_backslashes true 0 1 word (34 :: (escapeBytes p ++ 34 :: tail))
    have hshort : shortened (34 :: p) = 34 :: shortened p := by simp [shortened, shortenedFrom]
    rw [List.replicate_one, List.singleton_append] at hpair
    rw [List.cons_append, List.cons_append, hpair, Nat.zero_add, hone, ih, hshort]
    simp
  | case3 p h numBackslashes rest numBackslashes' ih =>
    obtain ⟨k, -, hcount, hhead, hshort⟩ := countBackslashes_eq 0 (92 :: p)
    rw [UInt32.zero_add] at hcount
    have hshortened : shortened (92 :: p) = List.replicate (k % backslashLimit rest.head?) 92 ++ shortened rest := by
      rw [shortened, hshort, Nat.zero_add, shortenedFrom_of_head hhead]
    rw [hshortened, List.append_assoc, splitFrom_backslashes, Nat.zero_add, ← List.append_assoc word, ← ih]
    by_cases hend : rest = [] ∨ rest.head? = some 34
    · have hlimit : backslashLimit rest.head? = 2 ^ 31 := if_pos (by simpa using hend)
      have hnumber : numBackslashes'.toNat = 2 * (k % 2 ^ 31) := by
        rw [show numBackslashes' = numBackslashes * 2 from if_pos hend, show numBackslashes = UInt32.ofNat k from hcount,
          toNat_doubled]
      rw [hnumber, hlimit]
      exact splitFrom_doubled hend _ word tail
    · have hlimit : backslashLimit rest.head? = 2 ^ 32 := if_neg (by simpa using hend)
      have hnumber : numBackslashes'.toNat = k % 2 ^ 32 := by
        rw [show numBackslashes' = numBackslashes from if_neg hend, show numBackslashes = UInt32.ofNat k from hcount,
          UInt32.toNat_ofNat']
      rw [hnumber, hlimit]
      exact splitFrom_undoubled hend hhead _ word tail
  | case4 c p hquote hbackslash ih =>
    have hshort : shortened (c :: p) = c :: shortened p := by simp [shortened, shortenedFrom, hbackslash]
    rw [List.cons_append, splitFrom_literal hbackslash hquote, ih, hshort]
    simp

/-- A name without quotes is quoted as it is, up to the shortening. -/
private theorem escapeBytes_program {arg : Bytes} (hquote : (34 : UInt8) ∉ arg) (hend : arg.getLast? ≠ some 92) :
    escapeBytes arg = shortened arg := by
  fun_induction escapeBytes arg with
  | case1 => rfl
  | case2 p ih => exact absurd List.mem_cons_self hquote
  | case3 p h numBackslashes rest numBackslashes' ih =>
    obtain ⟨k, hp, hcount, hhead, hshort⟩ := countBackslashes_eq 0 (92 :: p)
    change 92 :: p = List.replicate k 92 ++ rest at hp
    rw [UInt32.zero_add] at hcount
    have hne : rest ≠ [] := by
      intro he
      rw [hp, he, List.append_nil, List.getLast?_replicate] at hend
      split_ifs at hend with hk
      · rw [he, hk] at hp
        cases hp
      · exact hend rfl
    have hmem : (34 : UInt8) ∉ rest := fun hmem => hquote (by rw [hp]; exact List.mem_append_right _ hmem)
    have hlast : rest.getLast? ≠ some 92 := by
      rwa [hp, List.getLast?_append_of_ne_nil _ hne] at hend
    have hno : ¬ (rest = [] ∨ rest.head? = some 34) := by
      rintro (he | he)
      · exact hne he
      · exact hmem (List.mem_of_head? he)
    have hlimit : backslashLimit rest.head? = 2 ^ 32 := if_neg (by simpa using hno)
    have hnumber : numBackslashes'.toNat = k % 2 ^ 32 := by
      rw [show numBackslashes' = numBackslashes from if_neg hno, show numBackslashes = UInt32.ofNat k from hcount,
        UInt32.toNat_ofNat']
    rw [shortened, hshort, Nat.zero_add, shortenedFrom_of_head hhead, hnumber, ih hmem hlast]
    exact congrArg (fun n => List.replicate (k % n) 92 ++ shortened rest) hlimit.symm
  | case4 c p hne hbackslash ih =>
    have hshort : shortened (c :: p) = c :: shortened p := by simp [shortened, shortenedFrom, hbackslash]
    rw [List.mem_cons, not_or] at hquote
    rw [hshort, ih hquote.2]
    intro hlast
    refine hend ?_
    cases p with
    | nil => cases hlast
    | cons c' p => rwa [List.getLast?_cons_cons]

private theorem notMem_shortenedFrom {arg : Bytes} (h : (34 : UInt8) ∉ arg) (n : Nat) :
    (34 : UInt8) ∉ shortenedFrom n arg := by
  induction arg generalizing n with
  | nil => simp [shortenedFrom]
  | cons c p ih =>
    rw [List.mem_cons, not_or] at h
    rw [shortenedFrom]
    split_ifs
    · exact ih h.2 _
    · simp [h.1, ih h.2]

/-- The arguments after the program. -/
private theorem splitFrom_arguments (command : List Bytes) (word : Bytes) :
    splitFrom false 0 (some word) (command.flatMap fun arg => 32 :: 34 :: (escapeBytes arg ++ [34])) =
      word :: command.map shortened := by
  induction command generalizing word with
  | nil => exact splitFrom_end word
  | cons arg command ih =>
    rw [List.flatMap_cons, List.cons_append, splitFrom_next, List.cons_append, splitFrom_open, List.append_assoc,
      List.singleton_append, splitFrom_escapeBytes, ih]
    rfl

private theorem splitProgram_arguments (command : List Bytes) (name : Bytes) :
    splitProgram false name (command.flatMap fun arg => 32 :: 34 :: (escapeBytes arg ++ [34])) =
      name :: command.map shortened := by
  cases command with
  | nil => rfl
  | cons arg command =>
    have harguments := splitFrom_arguments (arg :: command) name
    rw [List.flatMap_cons, List.cons_append] at harguments ⊢
    rw [splitFrom_next] at harguments
    exact harguments

/-- The command line is taken apart into its arguments, shortened. -/
theorem split_formatCmdline {program : Bytes} (hquote : (34 : UInt8) ∉ program) (hend : program.getLast? ≠ some 92)
    (command : List Bytes) :
    split (formatCmdline (program :: command)) = shortened program :: command.map shortened := by
  rw [formatCmdline_cons, escapeBytes_program hquote hend, split, splitProgram, if_pos rfl, Bool.not_false,
    splitProgram_quoted (show (34 : UInt8) ∉ shortened program from notMem_shortenedFrom hquote 0),
    splitProgram_arguments]
  rfl

/-! ### Short runs -/

private theorem length_shortenedFrom_le (arg : Bytes) (n : Nat) : (shortenedFrom n arg).length ≤ n + arg.length := by
  induction arg generalizing n with
  | nil =>
    rw [shortenedFrom, List.length_replicate]
    exact (Nat.mod_le _ _).trans (Nat.le_add_right _ _)
  | cons c p ih =>
    rw [shortenedFrom]
    have hle := Nat.mod_le n (backslashLimit (some c))
    split_ifs
    · have := ih (n + 1)
      simp only [List.length_cons]
      omega
    · have := ih 0
      simp only [List.length_append, List.length_replicate, List.length_cons]
      omega

theorem mod_backslashLimit {n : Nat} {next : Option UInt8} : n % backslashLimit next = n ↔ n < backslashLimit next :=
  ⟨fun h => h ▸ Nat.mod_lt n (backslashLimit_pos next), Nat.mod_eq_of_lt⟩

/-- No run is shortened exactly when each is short enough. -/
private theorem shortenedFrom_eq_iff (arg : Bytes) (n : Nat) :
    shortenedFrom n arg = List.replicate n 92 ++ arg ↔ ∀ run ∈ backslashRuns n arg, run.1 < backslashLimit run.2 := by
  induction arg generalizing n with
  | nil =>
    rw [shortenedFrom, List.append_nil, List.replicate_inj, backslashRuns, List.forall_mem_singleton,
      ← mod_backslashLimit]
    simp
  | cons c p ih =>
    by_cases hc : c = 92
    · rw [shortenedFrom, backslashRuns, if_pos hc, if_pos hc, ← ih, List.replicate_succ', List.append_assoc, hc]
      rfl
    · rw [shortenedFrom, backslashRuns, if_neg hc, if_neg hc, List.forall_mem_cons, ← ih, ← mod_backslashLimit]
      constructor
      · intro he
        -- neither the run nor what follows it gets longer, so neither gets shorter
        have hlength := congrArg List.length he
        have hrun := Nat.mod_le n (backslashLimit (some c))
        have hrest := length_shortenedFrom_le p 0
        simp only [List.length_append, List.length_replicate, List.length_cons] at hlength
        have hmod : n % backslashLimit (some c) = n := by omega
        rw [hmod] at he
        exact ⟨hmod, (List.cons.inj (List.append_cancel_left he)).2⟩
      · rintro ⟨hmod, hrest⟩
        rw [hmod, hrest]
        rfl

private theorem shortened_eq_iff {arg : Bytes} : shortened arg = arg ↔ CountsBackslashes arg :=
  shortenedFrom_eq_iff arg 0

private theorem map_shortened_eq_iff (args : List Bytes) :
    args.map shortened = args ↔ ∀ arg ∈ args, CountsBackslashes arg := by
  have hmap : args.map shortened = args.map id ↔ ∀ arg ∈ args, shortened arg = id arg := List.map_inj_left
  rw [List.map_id] at hmap
  simp only [hmap, id, shortened_eq_iff]

/-- A command line is taken apart into exactly the arguments it was made from if and only if no
run of backslashes in them overflows the counter. -/
theorem split_formatCmdline_iff {program : Bytes} {command : List Bytes} (hquote : (34 : UInt8) ∉ program)
    (hend : program.getLast? ≠ some 92) :
    split (formatCmdline (program :: command)) = program :: command ↔
      ∀ arg ∈ program :: command, CountsBackslashes arg := by
  rw [split_formatCmdline hquote hend, ← map_shortened_eq_iff, List.map_cons]

theorem split_formatCmdline_iff_paths :
    split (formatCmdline [str "C:\\git.exe", str "a\\\"b", str "c d\\"]) =
        [str "C:\\git.exe", str "a\\\"b", str "c d\\"] ↔
      ∀ arg ∈ [str "C:\\git.exe", str "a\\\"b", str "c d\\"], CountsBackslashes arg :=
  split_formatCmdline_iff (by decide) (by decide)

private theorem shortenedFrom_replicate (n k : Nat) :
    shortenedFrom n (List.replicate k 92) = List.replicate ((n + k) % 2 ^ 31) 92 := by
  induction k generalizing n with
  | zero => rfl
  | succ k ih => rw [List.replicate_succ, shortenedFrom, if_pos rfl, ih, Nat.add_right_comm, Nat.add_assoc]

/-- An argument of 2^31 backslashes arrives empty. -/
theorem split_formatCmdline_loses_backslashes : ¬ ∀ args : List Bytes,
    (∀ program command, args = program :: command → (34 : UInt8) ∉ program ∧ program.getLast? ≠ some 92) →
      args ≠ [] → (∀ arg ∈ args, (0 : UInt8) ∉ arg) → split (formatCmdline args) = args := by
  intro h
  have hargs := h [str "git", List.replicate (2 ^ 31) 92] ?_ (List.cons_ne_nil _ _) ?_
  · rw [split_formatCmdline (by decide) (by decide), List.map_singleton] at hargs
    have hlost : shortened (List.replicate (2 ^ 31) 92) = [] := by
      rw [shortened, shortenedFrom_replicate, Nat.zero_add, Nat.mod_self, List.replicate_zero]
    have hlength := congrArg List.length (List.cons.inj (List.cons.inj hargs).2).1
    rw [hlost, List.length_replicate] at hlength
    exact absurd hlength (by decide)
  · intro program command he
    rw [← (List.cons.inj he).1]
    decide
  · refine List.forall_mem_cons.mpr ⟨by decide, List.forall_mem_singleton.mpr fun hmem => ?_⟩
    exact absurd (List.eq_of_mem_replicate hmem) (by decide)

end GitCrypt
