import GitCrypt.Library.Hoare
import GitCrypt.ParseOptions

/-! `parse_options` on the argument vector itself, by index, and the ways to write an option that
mean the same. -/
namespace GitCrypt

/-- How reading the arguments can stop: by an exception, or with an index that is out of range. -/
inductive Stop where
  | thrown (e : Exception)
  | outOfRange (argi : Nat)
  deriving DecidableEq

section
variable {σ : Type} (options : List (OptionDef σ)) (argv : List Bytes)

/-- `argv[argi]` -/
def argAt (argi : Nat) : Prog σ Stop Bytes :=
  match argv[argi]? with
  | some arg => pure arg
  | none => throw (.outOfRange argi)

/-- The value of an option from the next argument. -/
def nextValue (argi : Nat) (optionName : Bytes) : Prog σ Stop Bytes := do
  if argv.length ≤ argi then throw (.thrown (missingValue optionName))
  argAt argv argi

/-- The branch of `parse_options` for two dashes, with `argi` past the option. The result says
whether it has gone past the next argument as well. -/
def longOptionAt (argi : Nat) (arg : Bytes) : Prog σ Stop Bool := do
  let optionName := arg.takeWhile (· ≠ 61)
  let optionValue := if (61 : UInt8) ∈ arg then some (arg.drop (optionName.length + 1)) else none
  match findOption options optionName with
  | none => throw (.thrown (invalidOption optionName))
  | some opt =>
    modify opt.setFlag
    match opt.value, optionValue with
    | some set, some value =>
      modify (set value)
      return false
    | some set, none =>
      let value ← nextValue argv argi optionName
      modify (set value)
      return true
    | none, some _ => throw (.thrown (unwantedValue optionName))
    | none, none => return false

/-- The loop over the letters after a single dash. -/
def shortOptionsAt (argi : Nat) : Bytes → Prog σ Stop Bool
  | [] => return false
  | c :: arg => do
    let optionName := [45, c]
    match findOption options optionName with
    | none => throw (.thrown (invalidOption optionName))
    | some opt =>
      modify opt.setFlag
      match opt.value with
      | none => shortOptionsAt argi arg
      | some set =>
        if arg ≠ [] then
          modify (set arg)
          return false
        else
          let value ← nextValue argv argi optionName
          modify (set value)
          return true

def optionAt (argi : Nat) (arg : Bytes) : Prog σ Stop Bool :=
  if arg.take 2 = str "--" then longOptionAt options argv argi arg
  else shortOptionsAt options argv argi (arg.drop 1)

/-- The loop of `parse_options` from an argument on. The result is the final `argi`. -/
def parseOptionsFrom (argi : Nat) : Prog σ Stop Nat :=
  if _h : argi < argv.length then do
    let arg ← argAt argv argi
    if ¬ (arg.head? = some 45 ∧ 2 ≤ arg.length) then return argi
    else if arg = str "--" then return argi + 1
    else
      let taken ← optionAt options argv (argi + 1) arg
      parseOptionsFrom (if taken then argi + 2 else argi + 1)
  else return argi
termination_by argv.length - argi
decreasing_by split <;> omega

/-- What is left of `parse_options`: the arguments from `argi` on, or how it has stopped, and the
option variables. -/
def parseOutcome (argi : Nat) (vars : σ) : Except Stop (List Bytes) × σ :=
  ((parseOptionsFrom options argv argi vars).1.map argv.drop, (parseOptionsFrom options argv argi vars).2)

end

variable {σ : Type} {options : List (OptionDef σ)} {argv argv' : List Bytes} {argi argi' : Nat} {vars vars' : σ}

/-! ### Reading an option -/

private theorem nextValue_apply (argv : List Bytes) (argi : Nat) (optionName : Bytes) (vars : σ) :
    nextValue argv argi optionName vars =
      ((argv[argi]?).elim (.error (.thrown (missingValue optionName))) .ok, vars) := by
  unfold nextValue
  by_cases h : argv.length ≤ argi
  · rw [if_pos h, List.getElem?_eq_none h]
    rfl
  · rw [if_neg h, argAt, List.getElem?_eq_getElem (by omega)]
    rfl

/-- What reading an option comes to: it is done with, it is refused, or it takes the next
argument, if there is one. -/
inductive OptionReading (read : List Bytes → Nat → Prog σ Stop Bool) (vars : σ) : Prop where
  | done (vars' : σ) (h : ∀ argv argi, read argv argi vars = (.ok false, vars'))
  | refused (e : Exception) (vars' : σ) (h : ∀ argv argi, read argv argi vars = (.error (.thrown e), vars'))
  | takesNext (e : Exception) (vars' : σ) (set : Bytes → σ → σ)
      (h : ∀ (argv : List Bytes) (argi : Nat), read argv argi vars =
        (argv[argi]?).elim (.error (.thrown e), vars') fun value => (.ok true, set value vars'))

/-- Taking the value of an option from the next argument. -/
theorem takeNext_apply (argv : List Bytes) (argi : Nat) (optionName : Bytes) (set : Bytes → σ → σ) (vars : σ) :
    (do
      let value ← nextValue argv argi optionName
      modify (set value)
      return true : Prog σ Stop Bool) vars = (argv[argi]?).elim (.error (.thrown (missingValue optionName)), vars)
        fun value => (.ok true, set value vars) := by
  rw [Prog.bind_apply, nextValue_apply]
  cases argv[argi]? with
  | none => rfl
  | some value => rfl

private theorem longOptionAt_cases (arg : Bytes) (vars : σ) :
    OptionReading (fun argv argi => longOptionAt options argv argi arg) vars := by
  unfold longOptionAt
  cases hfind : findOption options (arg.takeWhile (· ≠ 61)) with
  | none =>
    simp only [hfind]
    exact .refused (invalidOption (arg.takeWhile (· ≠ 61))) vars fun argv argi => rfl
  | some opt =>
    cases hset : opt.value with
    | none =>
      by_cases heq : (61 : UInt8) ∈ arg
      · simp only [hfind, hset, if_pos heq]
        exact .refused (unwantedValue (arg.takeWhile (· ≠ 61))) (opt.setFlag vars) fun argv argi => rfl
      · simp only [hfind, hset, if_neg heq]
        exact .done (opt.setFlag vars) fun argv argi => rfl
    | some set =>
      by_cases heq : (61 : UInt8) ∈ arg
      · simp only [hfind, hset, if_pos heq]
        exact .done (set (arg.drop ((arg.takeWhile (· ≠ 61)).length + 1)) (opt.setFlag vars)) fun argv argi => rfl
      · simp only [hfind, hset, if_neg heq]
        exact .takesNext _ (opt.setFlag vars) set fun argv argi => takeNext_apply argv argi _ set (opt.setFlag vars)

private theorem shortOptionsAt_cases (arg : Bytes) (vars : σ) :
    OptionReading (fun argv argi => shortOptionsAt options argv argi arg) vars := by
  induction arg generalizing vars with
  | nil => exact .done vars fun argv argi => rfl
  | cons c arg ih =>
    unfold shortOptionsAt
    cases hfind : findOption options [45, c] with
    | none =>
      simp only [hfind]
      exact .refused (invalidOption [45, c]) vars fun argv argi => rfl
    | some opt =>
      cases hset : opt.value with
      | none =>
        simp only [hfind, hset]
        rcases ih (opt.setFlag vars) with ⟨vars', h⟩ | ⟨e, vars', h⟩ | ⟨e, vars', set, h⟩
        · exact .done vars' fun argv argi => h argv argi
        · exact .refused e vars' fun argv argi => h argv argi
        · exact .takesNext e vars' set fun argv argi => h argv argi
      | some set =>
        by_cases harg : arg = []
        · simp only [hfind, hset, harg, ne_eq, not_true, if_false]
          exact .takesNext _ (opt.setFlag vars) set fun argv argi => takeNext_apply argv argi _ set (opt.setFlag vars)
        · simp only [hfind, hset, ne_eq, harg, not_false_eq_true, if_true]
          exact .done (set arg (opt.setFlag vars)) fun argv argi => rfl

theorem optionAt_cases (options : List (OptionDef σ)) (arg : Bytes) (vars : σ) :
    OptionReading (fun argv argi => optionAt options argv argi arg) vars := by
  unfold optionAt
  split_ifs
  · exact longOptionAt_cases arg vars
  · exact shortOptionsAt_cases (arg.drop 1) vars

/-- Only the next argument matters. -/
theorem optionAt_congr (h : argv[argi]? = argv'[argi']?) (arg : Bytes) (vars : σ) :
    optionAt options argv argi arg vars = optionAt options argv' argi' arg vars := by
  rcases optionAt_cases options arg vars with ⟨vars', hread⟩ | ⟨e, vars', hread⟩ | ⟨e, vars', set, hread⟩
  · rw [hread, hread]
  · rw [hread, hread]
  · rw [hread, hread, h]

/-! ### The loop -/

theorem parseOptionsFrom_end (h : argv.length ≤ argi) : parseOptionsFrom options argv argi vars = (.ok argi, vars) := by
  rw [parseOptionsFrom, dif_neg (by omega)]
  rfl

/-- An argument that is read as an option. -/
def IsOption (arg : Bytes) : Prop := arg.head? = some 45 ∧ 2 ≤ arg.length ∧ arg ≠ str "--"

theorem parseOptionsFrom_turn {arg : Bytes} (hat : argv[argi]? = some arg) :
    parseOptionsFrom options argv argi =
      if ¬ (arg.head? = some 45 ∧ 2 ≤ arg.length) then pure argi
      else if arg = str "--" then pure (argi + 1)
      else optionAt options argv (argi + 1) arg >>= fun taken =>
        parseOptionsFrom options argv (if taken then argi + 2 else argi + 1) := by
  obtain ⟨hlt, -⟩ := List.getElem?_eq_some_iff.mp hat
  have hread : (argAt argv argi : Prog σ Stop Bytes) = pure arg := by rw [argAt, hat]
  rw [parseOptionsFrom, dif_pos hlt, hread]
  rfl

/-- A turn of the loop on an option. -/
theorem parseOptionsFrom_option {arg : Bytes} (hat : argv[argi]? = some arg) (harg : IsOption arg) :
    parseOptionsFrom options argv argi vars = (optionAt options argv (argi + 1) arg >>= fun taken =>
      parseOptionsFrom options argv (if taken then argi + 2 else argi + 1)) vars := by
  rw [parseOptionsFrom_turn hat, if_neg (not_not.mpr ⟨harg.1, harg.2.1⟩), if_neg harg.2.2]

/-- A turn of the loop on the argument that ends it. -/
theorem parseOptionsFrom_stop {arg : Bytes} (hat : argv[argi]? = some arg) (harg : ¬ IsOption arg) :
    parseOptionsFrom options argv argi vars = (.ok (if arg = str "--" then argi + 1 else argi), vars) := by
  rw [parseOptionsFrom_turn hat]
  by_cases hend : arg = str "--"
  · rw [if_neg (not_not.mpr (by rw [hend]; decide)), if_pos hend, if_pos hend]
    rfl
  · rw [if_pos fun hdash => harg ⟨hdash.1, hdash.2, hend⟩, if_neg hend]
    rfl

/-- No index was out of range, and the index returned is at most `argc`. -/
structure InRange (argv : List Bytes) (result : Except Stop Nat) : Prop where
  reads : ∀ i, result ≠ .error (.outOfRange i)
  returns : ∀ argi, result = .ok argi → argi ≤ argv.length

theorem InRange.ok (h : argi ≤ argv.length) : InRange argv (.ok argi) := by
  refine ⟨fun i he => ?_, fun argi' he => ?_⟩
  · cases he
  · cases he
    exact h

theorem InRange.thrown (argv : List Bytes) (e : Exception) : InRange argv (.error (.thrown e)) := by
  refine ⟨fun i he => ?_, fun argi' he => ?_⟩
  · cases he
  · cases he

private theorem parseOptionsFrom_inRange (h : argi ≤ argv.length) (vars : σ) :
    InRange argv (parseOptionsFrom options argv argi vars).1 := by
  induction hn : argv.length - argi using Nat.strong_induction_on generalizing argi vars with
  | _ n ih =>
    rcases hat : argv[argi]? with _ | arg
    · rw [parseOptionsFrom_end (List.getElem?_eq_none_iff.mp hat)]
      exact .ok h
    obtain ⟨hlt, -⟩ := List.getElem?_eq_some_iff.mp hat
    by_cases harg : IsOption arg
    · have hnext (argi' : Nat) (hargi : argi < argi') (hle : argi' ≤ argv.length) (vars' : σ) :=
        ih (argv.length - argi') (by omega) hle vars' rfl
      rw [parseOptionsFrom_option hat harg]
      rcases optionAt_cases options arg vars with ⟨vars', hread⟩ | ⟨e, vars', hread⟩ | ⟨e, vars', set, hread⟩
      · rw [Prog.bind_of_ok (hread _ _)]
        exact hnext (argi + 1) (by omega) (by omega) vars'
      · rw [Prog.bind_of_error (hread _ _)]
        exact .thrown argv e
      · have hread := hread argv (argi + 1)
        rcases hvalue : argv[argi + 1]? with _ | value <;> rw [hvalue] at hread
        · rw [Prog.bind_of_error hread]
          exact .thrown argv e
        · obtain ⟨hlt', -⟩ := List.getElem?_eq_some_iff.mp hvalue
          rw [Prog.bind_of_ok hread]
          exact hnext (argi + 2) (by omega) (by omega) (set value vars')
    · rw [parseOptionsFrom_stop hat harg]
      split_ifs
      · exact .ok hlt
      · exact .ok h

theorem drop_eq_of_drop_eq (h : argv.drop argi = argv'.drop argi') (k : Nat) :
    argv.drop (argi + k) = argv'.drop (argi' + k) := by
  rw [← List.drop_drop, h, List.drop_drop]

theorem getElem?_eq_of_drop_eq (h : argv.drop argi = argv'.drop argi') (k : Nat) :
    argv[argi + k]? = argv'[argi' + k]? := by
  rw [← List.getElem?_drop, h, List.getElem?_drop]

/-- Only the arguments from the index on matter. -/
theorem parseOutcome_congr (h : argv.drop argi = argv'.drop argi') (vars : σ) :
    parseOutcome options argv argi vars = parseOutcome options argv' argi' vars := by
  induction hn : argv.length - argi using Nat.strong_induction_on generalizing argi argi' vars with
  | _ n ih =>
    have hhere : argv[argi]? = argv'[argi']? := getElem?_eq_of_drop_eq h 0
    rcases hat : argv[argi]? with _ | arg
    · have hat' := hhere.symm.trans hat
      unfold parseOutcome
      rw [parseOptionsFrom_end (List.getElem?_eq_none_iff.mp hat), parseOptionsFrom_end (List.getElem?_eq_none_iff.mp hat')]
      exact congrArg (fun args => (Except.ok args, vars)) h
    have hat' := hhere.symm.trans hat
    obtain ⟨hlt, -⟩ := List.getElem?_eq_some_iff.mp hat
    by_cases harg : IsOption arg
    · have hnext (k : Nat) (hk : 0 < k) (vars' : σ) :=
        ih (argv.length - (argi + k)) (by omega) (drop_eq_of_drop_eq h k) vars' rfl
      unfold parseOutcome at hnext ⊢
      rw [parseOptionsFrom_option hat harg, parseOptionsFrom_option hat' harg]
      rcases optionAt_cases options arg vars with ⟨vars', hread⟩ | ⟨e, vars', hread⟩ | ⟨e, vars', set, hread⟩
      · rw [Prog.bind_of_ok (hread _ _), Prog.bind_of_ok (hread _ _)]
        exact hnext 1 (by decide) vars'
      · rw [Prog.bind_of_error (hread _ _), Prog.bind_of_error (hread _ _)]
        rfl
      · have hleft := hread argv (argi + 1)
        have hright := hread argv' (argi' + 1)
        rw [← getElem?_eq_of_drop_eq h 1] at hright
        rcases hvalue : argv[argi + 1]? with _ | value <;> rw [hvalue] at hleft hright
        · rw [Prog.bind_of_error hleft, Prog.bind_of_error hright]
          rfl
        · rw [Prog.bind_of_ok hleft, Prog.bind_of_ok hright]
          exact hnext 2 (by decide) (set value vars')
    · unfold parseOutcome
      rw [parseOptionsFrom_stop hat harg, parseOptionsFrom_stop hat' harg]
      split_ifs
      · exact congrArg (fun args => (Except.ok args, vars)) (drop_eq_of_drop_eq h 1)
      · exact congrArg (fun args => (Except.ok args, vars)) h

/-! ### Rewriting -/

/-- The loop gets to an index, with these variables. -/
inductive Reaches (options : List (OptionDef σ)) (argv : List Bytes) (vars₀ : σ) : Nat → σ → Prop where
  | start : Reaches options argv vars₀ 0 vars₀
  | next {argi : Nat} {vars vars' : σ} {arg : Bytes} {taken : Bool} (h : Reaches options argv vars₀ argi vars)
      (hat : argv[argi]? = some arg) (harg : IsOption arg)
      (hread : optionAt options argv (argi + 1) arg vars = (.ok taken, vars')) :
      Reaches options argv vars₀ (if taken then argi + 2 else argi + 1) vars'

theorem Reaches.outcome_eq {vars₀ : σ} (h : Reaches options argv vars₀ argi vars) :
    parseOutcome options argv 0 vars₀ = parseOutcome options argv argi vars := by
  induction h with
  | start => rfl
  | next h hat harg hread ih =>
    rw [ih]
    unfold parseOutcome
    rw [parseOptionsFrom_option hat harg, Prog.bind_of_ok hread]

/-- Getting to an index only depends on the arguments before it. -/
theorem Reaches.congr {vars₀ : σ} {pre post post' : List Bytes} (h : Reaches options (pre ++ post) vars₀ argi vars)
    (hargi : argi ≤ pre.length) : Reaches options (pre ++ post') vars₀ argi vars := by
  induction h with
  | start => exact .start
  | @next argi vars vars' arg taken h hat harg hread ih =>
    have hlt : argi < pre.length := by
      split_ifs at hargi
      · omega
      · omega
    rw [List.getElem?_append_left hlt] at hat
    refine .next (ih hlt.le) ((List.getElem?_append_left hlt).trans hat) harg ?_
    rcases optionAt_cases options arg vars with ⟨vars'', hcases⟩ | ⟨e, vars'', hcases⟩ | ⟨e, vars'', set, hcases⟩
    · rwa [hcases] at hread ⊢
    · rw [hcases] at hread
      cases hread
    · -- an option that takes the next argument ends before the index too
      have htaken : taken = true := by
        rw [hcases] at hread
        rcases hvalue : (pre ++ post)[argi + 1]? with _ | value <;> rw [hvalue] at hread <;> cases hread
        rfl
      rw [if_pos htaken] at hargi
      have hsame : (pre ++ post)[argi + 1]? = (pre ++ post')[argi + 1]? := by
        rw [List.getElem?_append_left (by omega), List.getElem?_append_left (by omega)]
      rwa [← optionAt_congr hsame]

/-- What an argument that is read as an option may be written as instead: letters apart, a value
apart from its letter, or a value apart from the name. Two dashes begin a name, and by
themselves end the options. -/
inductive Rewrites (options : List (OptionDef σ)) : Bytes → List Bytes → Prop where
  | letters {x : UInt8} {rest : Bytes} {opt : OptionDef σ} (hx : x ≠ 45)
      (hfind : findOption options [45, x] = some opt) (hflag : opt.value = none) (hne : rest ≠ [])
      (hrest : rest.head? ≠ some 45) : Rewrites options (45 :: x :: rest) [[45, x], 45 :: rest]
  | letterValue {k : UInt8} {value : Bytes} {opt : OptionDef σ} {set : Bytes → σ → σ} (hk : k ≠ 45)
      (hfind : findOption options [45, k] = some opt) (hset : opt.value = some set) (hne : value ≠ []) :
      Rewrites options (45 :: k :: value) [[45, k], value]
  | nameValue {name value : Bytes} {opt : OptionDef σ} {set : Bytes → σ → σ} (hname : name ≠ [])
      (heq : (61 : UInt8) ∉ name) (hfind : findOption options (str "--" ++ name) = some opt)
      (hset : opt.value = some set) : Rewrites options (str "--" ++ name ++ 61 :: value) [str "--" ++ name, value]

/-- A turn on the first argument, which is an option. -/
theorem parseOutcome_cons {arg : Bytes} {args : List Bytes} (harg : IsOption arg) {taken : Bool}
    (hread : optionAt options (arg :: args) 1 arg vars = (.ok taken, vars')) :
    parseOutcome options (arg :: args) 0 vars = parseOutcome options (if taken then args.drop 1 else args) 0 vars' := by
  have hdrop : (arg :: args).drop (if taken then 2 else 1) = (if taken then args.drop 1 else args).drop 0 := by
    cases taken <;> rfl
  rw [← parseOutcome_congr hdrop vars']
  unfold parseOutcome
  rw [parseOptionsFrom_option rfl harg, Prog.bind_of_ok hread]

theorem isOption_letters {x : UInt8} (hx : x ≠ 45) (rest : Bytes) : IsOption (45 :: x :: rest) :=
  ⟨rfl, by simp, fun he => hx (List.cons.inj (List.cons.inj he).2).1⟩

theorem optionAt_letters {x : UInt8} (hx : x ≠ 45) (rest : Bytes) :
    optionAt options argv argi (45 :: x :: rest) = shortOptionsAt options argv argi (x :: rest) := by
  have hne : (45 :: x :: rest).take 2 ≠ str "--" := fun he => hx (List.cons.inj (List.cons.inj he).2).1
  rw [optionAt, if_neg hne]
  rfl

/-- Two options that are read alike before the same arguments. -/
private theorem parseOutcome_of_read_eq {arg arg' : Bytes} {args : List Bytes} (harg : IsOption arg)
    (harg' : IsOption arg')
    (hread : optionAt options (arg :: args) 1 arg vars = optionAt options (arg' :: args) 1 arg' vars') :
    parseOutcome options (arg :: args) 0 vars = parseOutcome options (arg' :: args) 0 vars' := by
  rcases hresult : optionAt options (arg :: args) 1 arg vars with ⟨e | taken, vars''⟩ <;> rw [hresult] at hread
  · unfold parseOutcome
    rw [parseOptionsFrom_option rfl harg, parseOptionsFrom_option rfl harg', Prog.bind_of_error hresult,
      Prog.bind_of_error hread.symm]
    rfl
  · rw [parseOutcome_cons harg hresult, parseOutcome_cons harg' hread.symm]

theorem isOption_name {name : Bytes} (hname : name ≠ []) : IsOption (str "--" ++ name) := by
  refine ⟨rfl, by simp [str], fun he => hname ?_⟩
  have hnil : str "--" ++ name = str "--" ++ [] := he.trans (List.append_nil _).symm
  exact List.append_cancel_left hnil

theorem optionAt_long {arg : Bytes} (h : arg.take 2 = str "--") :
    optionAt options argv argi arg = longOptionAt options argv argi arg := if_pos h

/-- The bytes of a name, up to the sign that would end it. -/
theorem forall_name_ne {name : Bytes} (heq : (61 : UInt8) ∉ name) : ∀ c ∈ str "--" ++ name, decide (c ≠ 61) = true := by
  intro c hc
  refine decide_eq_true ?_
  rintro rfl
  rcases List.mem_append.mp hc with hc | hc
  · exact absurd hc (by decide)
  · exact heq hc

private theorem optionAt_nameAttached {name : Bytes} {opt : OptionDef σ} {set : Bytes → σ → σ}
    (heq : (61 : UInt8) ∉ name)
    (hfind : findOption options (str "--" ++ name) = some opt) (hset : opt.value = some set) (value : Bytes) :
    optionAt options argv argi (str "--" ++ name ++ 61 :: value) vars = (.ok false, set value (opt.setFlag vars)) := by
  have hname : (str "--" ++ name ++ 61 :: value).takeWhile (· ≠ 61) = str "--" ++ name := by
    rw [List.takeWhile_append_of_pos (forall_name_ne heq), List.takeWhile_cons_of_neg (by decide), List.append_nil]
  have hvalue : (str "--" ++ name ++ 61 :: value).drop ((str "--" ++ name).length + 1) = value := by
    rw [← List.drop_drop, List.drop_left]
    rfl
  have hdashes : (str "--" ++ name ++ 61 :: value).take 2 = str "--" := rfl
  rw [optionAt_long hdashes, longOptionAt]
  simp only [hname, hfind, hset, hvalue, List.mem_append, List.mem_cons, true_or, or_true, if_true]
  rfl

private theorem optionAt_nameDetached {name : Bytes} {opt : OptionDef σ} {set : Bytes → σ → σ}
    (heq : (61 : UInt8) ∉ name)
    (hfind : findOption options (str "--" ++ name) = some opt) (hset : opt.value = some set) (value : Bytes)
    (post : List Bytes) : optionAt options ((str "--" ++ name) :: value :: post) 1 (str "--" ++ name) vars =
      (.ok true, set value (opt.setFlag vars)) := by
  have hname : (str "--" ++ name).takeWhile (· ≠ 61) = str "--" ++ name :=
    List.takeWhile_eq_self_iff.mpr (forall_name_ne heq)
  have hne : (61 : UInt8) ∉ str "--" ++ name := by
    rw [List.mem_append, not_or]
    exact ⟨by decide, heq⟩
  have hdashes : (str "--" ++ name).take 2 = str "--" := rfl
  rw [optionAt_long hdashes, longOptionAt]
  simp only [hname, hfind, hset, if_neg hne]
  exact takeNext_apply ((str "--" ++ name) :: value :: post) 1 (str "--" ++ name) set (opt.setFlag vars)

private theorem parseOutcome_rewrite {arg : Bytes} {args : List Bytes} (h : Rewrites options arg args)
    (post : List Bytes)
    (vars : σ) : parseOutcome options (arg :: post) 0 vars = parseOutcome options (args ++ post) 0 vars := by
  cases h with
  | @letters x rest opt hx hfind hflag hne hrest =>
    obtain ⟨c, rest, rfl⟩ := List.exists_cons_of_ne_nil hne
    have hc : c ≠ 45 := fun he => hrest (by rw [he]; rfl)
    have hletter (argv : List Bytes) (letters : Bytes) : shortOptionsAt options argv 1 (x :: letters) vars =
        shortOptionsAt options argv 1 letters (opt.setFlag vars) := by
      rw [shortOptionsAt]
      simp only [hfind, hflag]
      rfl
    have hfirst : optionAt options ([45, x] :: (45 :: c :: rest) :: post) 1 [45, x] vars =
        (.ok false, opt.setFlag vars) := by
      rw [optionAt_letters hx, hletter]
      rfl
    rw [List.cons_append, List.singleton_append, parseOutcome_cons (isOption_letters hx []) hfirst]
    refine parseOutcome_of_read_eq (isOption_letters hx _) (isOption_letters hc _) ?_
    rw [optionAt_letters hx, hletter, ← optionAt_letters hc]
    exact optionAt_congr (show ((45 :: x :: c :: rest) :: post)[1]? = ((45 :: c :: rest) :: post)[1]? from rfl) _ _
  | @letterValue k value opt set hk hfind hset hne =>
    have hattached : optionAt options ((45 :: k :: value) :: post) 1 (45 :: k :: value) vars =
        (.ok false, set value (opt.setFlag vars)) := by
      rw [optionAt_letters hk, shortOptionsAt]
      simp only [hfind, hset, ne_eq, hne, not_false_eq_true, if_true]
      rfl
    have hdetached : optionAt options ([45, k] :: value :: post) 1 [45, k] vars =
        (.ok true, set value (opt.setFlag vars)) := by
      rw [optionAt_letters hk, shortOptionsAt]
      simp only [hfind, hset]
      exact takeNext_apply ([45, k] :: value :: post) 1 [45, k] set (opt.setFlag vars)
    rw [parseOutcome_cons (isOption_letters hk _) hattached, List.cons_append, List.singleton_append,
      parseOutcome_cons (isOption_letters hk []) hdetached]
    rfl
  | @nameValue name value opt set hname heq hfind hset =>
    have hattached : IsOption (str "--" ++ name ++ 61 :: value) := by
      rw [List.append_assoc]
      exact isOption_name (by simp)
    rw [parseOutcome_cons hattached (optionAt_nameAttached heq hfind hset value), List.cons_append,
      List.singleton_append, parseOutcome_cons (isOption_name hname) (optionAt_nameDetached heq hfind hset value post)]
    rfl

/-- `parse_options` -/
def parseOptionsAt (options : List (OptionDef σ)) (argv : List Bytes) : Prog σ Stop Nat :=
  parseOptionsFrom options argv 0

/-- No argument is read at `argc` or beyond it, on return the index is between 0 and `argc`, and
an argument that is read as an option may be rewritten: what is left of the arguments, the
variables and the error are the same. -/
theorem parseOptions_grammar (options : List (OptionDef σ)) (vars₀ : σ) :
    (∀ argv, InRange argv (parseOptionsAt options argv vars₀).1) ∧
    ∀ (pre : List Bytes) (arg : Bytes) (args post : List Bytes) (vars : σ),
      Reaches options (pre ++ arg :: post) vars₀ pre.length vars → Rewrites options arg args →
        parseOutcome options (pre ++ arg :: post) 0 vars₀ = parseOutcome options (pre ++ (args ++ post)) 0 vars₀ := by
  refine ⟨fun argv => parseOptionsFrom_inRange (Nat.zero_le _) vars₀, fun pre arg args post vars hreaches hrewrites => ?_⟩
  have htail (rest : List Bytes) :
      parseOutcome options (pre ++ rest) pre.length vars = parseOutcome options rest 0 vars :=
    parseOutcome_congr (by rw [List.drop_left, List.drop_zero]) vars
  calc parseOutcome options (pre ++ arg :: post) 0 vars₀
      = parseOutcome options (pre ++ arg :: post) pre.length vars := hreaches.outcome_eq
    _ = parseOutcome options (args ++ post) 0 vars := by rw [htail, parseOutcome_rewrite hrewrites]
    _ = parseOutcome options (pre ++ (args ++ post)) 0 vars₀ := by
      have hreaches' : Reaches options (pre ++ (args ++ post)) vars₀ pre.length vars := hreaches.congr le_rfl
      rw [← htail, hreaches'.outcome_eq]

/-- The options of `plumbing` with a flag beside them, before an argument. -/
def letterOptions : List (OptionDef (Bool × Bytes)) :=
  { name := str "-q", isSet := some fun vars => (true, vars.2) } :: keyNameOptions fun value vars => (vars.1, value)

theorem parseOptions_grammar_letters :
    InRange [str "-qk", str "a", str "b"] (parseOptionsAt letterOptions [str "-qk", str "a", str "b"] (false, [])).1 ∧
    parseOutcome letterOptions ([] ++ (str "-qk") :: [str "a", str "b"]) 0 (false, []) =
      parseOutcome letterOptions ([] ++ ([str "-q", str "-k"] ++ [str "a", str "b"])) 0 (false, []) :=
  ⟨(parseOptions_grammar letterOptions (false, [])).1 _,
    (parseOptions_grammar letterOptions (false, [])).2 [] _ _ _ _ .start
      (@Rewrites.letters _ letterOptions 113 [107] _ (by decide) rfl rfl (by decide) (by decide))⟩

/-! ### Over the list -/

/-- A result with the variables, as the parser over the list returns it. -/
def withVars {α : Type} (run : Except Stop α × σ) : Except Stop (σ × α) := run.1.map fun a => (run.2, a)

theorem withVars_nextValue (argi : Nat) (optionName : Bytes) (set : Bytes → σ → σ) (vars : σ) :
    withVars ((do
      let value ← nextValue argv argi optionName
      modify (set value)
      return true : Prog σ Stop Bool) vars) =
      (argv[argi]?).elim (.error (.thrown (missingValue optionName))) fun value => .ok (set value vars, true) := by
  rw [takeNext_apply]
  cases argv[argi]? <;> rfl

private theorem readLongOption_eq (arg : Bytes) (vars : σ) :
    withVars (longOptionAt options argv argi arg vars) =
      (readLongOption options vars arg argv[argi]?).mapError .thrown := by
  unfold longOptionAt readLongOption
  cases hfind : findOption options (arg.takeWhile (· ≠ 61)) with
  | none =>
    simp only [hfind]
    rfl
  | some opt =>
    cases hset : opt.value with
    | none =>
      by_cases heq : (61 : UInt8) ∈ arg
      · simp only [hfind, hset, if_pos heq]
        rfl
      · simp only [hfind, hset, if_neg heq]
        rfl
    | some set =>
      by_cases heq : (61 : UInt8) ∈ arg
      · simp only [hfind, hset, if_pos heq]
        rfl
      · simp only [hfind, hset, if_neg heq]
        refine (withVars_nextValue argi _ set (opt.setFlag vars)).trans ?_
        cases argv[argi]? <;> rfl

private theorem readShortOptions_eq (arg : Bytes) (vars : σ) :
    withVars (shortOptionsAt options argv argi arg vars) =
      (readShortOptions options argv[argi]? vars arg).mapError .thrown := by
  induction arg generalizing vars with
  | nil => rfl
  | cons c arg ih =>
    unfold shortOptionsAt readShortOptions
    cases hfind : findOption options [45, c] with
    | none =>
      simp only [hfind]
      rfl
    | some opt =>
      cases hset : opt.value with
      | none =>
        simp only [hfind, hset]
        exact ih (opt.setFlag vars)
      | some set =>
        by_cases harg : arg = []
        · simp only [hfind, hset, harg, ne_eq, not_true, if_false]
          refine (withVars_nextValue argi _ set (opt.setFlag vars)).trans ?_
          cases argv[argi]? <;> rfl
        · simp only [hfind, hset, ne_eq, harg, not_false_eq_true, if_true]
          rfl

private theorem withVars_optionAt (arg : Bytes) (vars : σ) :
    withVars (optionAt options argv argi arg vars) =
      (if arg.take 2 = str "--" then readLongOption options vars arg argv[argi]?
        else readShortOptions options argv[argi]? vars (arg.drop 1)).mapError .thrown := by
  unfold optionAt
  split_ifs
  · exact readLongOption_eq arg vars
  · exact readShortOptions_eq (arg.drop 1) vars

theorem parseOutcome_nil (options : List (OptionDef σ)) (vars : σ) :
    parseOutcome options [] 0 vars = (.ok [], vars) := by
  unfold parseOutcome
  rw [parseOptionsFrom_end (show ([] : List Bytes).length ≤ 0 from le_rfl)]
  rfl

/-- The parser over the list of arguments is this one, without the variables of an error. -/
theorem parseOptions_eq_outcome (options : List (OptionDef σ)) (args : List Bytes) (vars : σ) :
    withVars (parseOutcome options args 0 vars) = (parseOptions options vars args).mapError .thrown := by
  induction hn : args.length using Nat.strong_induction_on generalizing args vars with
  | _ n ih =>
    rcases args with _ | ⟨arg, args⟩
    · rw [parseOutcome_nil]
      rfl
    by_cases harg : IsOption arg
    · have hread := @withVars_optionAt σ options (arg :: args) 1 arg vars
      rw [List.getElem?_cons_succ, ← List.head?_eq_getElem?] at hread
      rw [parseOptions, if_neg (not_not.mpr ⟨harg.1, harg.2.1⟩), if_neg harg.2.2]
      dsimp only
      generalize (if arg.take 2 = str "--" then readLongOption options vars arg args.head?
        else readShortOptions options args.head? vars (arg.drop 1)) = read at hread ⊢
      rcases hresult : optionAt options (arg :: args) 1 arg vars with ⟨e | taken, vars'⟩ <;> rw [hresult] at hread
      · have hstop : parseOutcome options (arg :: args) 0 vars = (.error e, vars') := by
          unfold parseOutcome
          rw [parseOptionsFrom_option rfl harg, Prog.bind_of_error hresult]
          rfl
        rw [hstop]
        cases read <;> cases hread
        rfl
      · rw [parseOutcome_cons harg hresult]
        rcases read with e | ⟨vars'', taken'⟩ <;> cases hread
        cases taken with
        | false => exact ih args.length (by rw [← hn]; simp) args vars' rfl
        | true =>
          cases args with
          | nil =>
            rw [if_pos rfl, List.drop_nil, parseOutcome_nil]
            rfl
          | cons value args =>
            have hlen : args.length < n := by
              rw [← hn, List.length_cons, List.length_cons]
              omega
            exact ih args.length hlen args vars' rfl
    · unfold parseOutcome
      rw [parseOptionsFrom_stop rfl harg, parseOptions]
      by_cases hend : arg = str "--"
      · rw [if_neg (not_not.mpr (by rw [hend]; decide)), if_pos hend, if_pos hend]
        rfl
      · rw [if_pos fun hdash => harg ⟨hdash.1, hdash.2, hend⟩, if_neg hend]
        rfl

end GitCrypt
