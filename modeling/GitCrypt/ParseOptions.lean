import GitCrypt.Util

/-! The option parser of parse_options.cpp. The variables the options point to are the
fields of one record, which every option changes. -/
namespace GitCrypt

/-- An option sets a flag or takes a value, never both. -/
structure OptionDef (σ : Type) where
  name : Bytes
  isSet : Option (σ → σ) := none
  value : Option (Bytes → σ → σ) := none

section
variable {σ : Type}

def findOption (options : List (OptionDef σ)) (name : Bytes) : Option (OptionDef σ) :=
  options.find? (·.name = name)

def OptionDef.setFlag (opt : OptionDef σ) (vars : σ) : σ :=
  match opt.isSet with
  | none => vars
  | some set => set vars

def invalidOption (name : Bytes) : Exception := .optionError name "Invalid option"
def missingValue (name : Bytes) : Exception := .optionError name "Option requires a value"
def unwantedValue (name : Bytes) : Exception := .optionError name "Option takes no value"

/-- An argument with two dashes. The result says whether the next argument was taken. -/
def readLongOption (options : List (OptionDef σ)) (vars : σ) (arg : Bytes) (next : Option Bytes) :
    Except Exception (σ × Bool) :=
  let optionName := arg.takeWhile (· ≠ 61)
  let optionValue := if (61 : UInt8) ∈ arg then some (arg.drop (optionName.length + 1)) else none
  match findOption options optionName with
  | none => .error (invalidOption optionName)
  | some opt =>
    let vars := opt.setFlag vars
    match opt.value, optionValue with
    | some set, some value => .ok (set value vars, false)
    | some set, none =>
      match next with
      | none => .error (missingValue optionName)
      | some value => .ok (set value vars, true)
    | none, some _ => .error (unwantedValue optionName)
    | none, none => .ok (vars, false)

/-- The letters after a single dash. An option with a value takes what is left of them. -/
def readShortOptions (options : List (OptionDef σ)) (next : Option Bytes) :
    σ → Bytes → Except Exception (σ × Bool)
  | vars, [] => .ok (vars, false)
  | vars, c :: arg =>
    let optionName := [45, c]
    match findOption options optionName with
    | none => .error (invalidOption optionName)
    | some opt =>
      let vars := opt.setFlag vars
      match opt.value with
      | none => readShortOptions options next vars arg
      | some set =>
        if arg ≠ [] then .ok (set arg vars, false)
        else match next with
          | none => .error (missingValue optionName)
          | some value => .ok (set value vars, true)

/-- The variables after `parse_options`, and the arguments from `argi` on. -/
def parseOptions (options : List (OptionDef σ)) : σ → List Bytes → Except Exception (σ × List Bytes)
  | vars, [] => .ok (vars, [])
  | vars, arg :: args =>
    if ¬ (arg.head? = some 45 ∧ 2 ≤ arg.length) then .ok (vars, arg :: args)
    else if arg = str "--" then .ok (vars, args)
    else
      let read := if arg.take 2 = str "--" then readLongOption options vars arg args.head?
        else readShortOptions options args.head? vars (arg.drop 1)
      match read with
      | .error e => .error e
      | .ok (vars, false) => parseOptions options vars args
      | .ok (vars, true) =>
        match args with
        | [] => .ok (vars, [])
        | _ :: args => parseOptions options vars args
termination_by structural _ args => args

/-- The options end at an argument without a dash. -/
theorem parseOptions_stop (options : List (OptionDef σ)) (vars : σ) {args : List Bytes}
    (h : ∀ arg, args.head? = some arg → arg.head? ≠ some 45) : parseOptions options vars args = .ok (vars, args) := by
  cases args with
  | nil => rfl
  | cons arg args =>
    rw [parseOptions, if_pos]
    exact fun hdash => h arg rfl hdash.1

/-- A letter that takes a value, with the value in the next argument. -/
theorem parseOptions_letter {options : List (OptionDef σ)} {c : UInt8} (hc : c ≠ 45) {opt : OptionDef σ}
    (hfind : findOption options [45, c] = some opt) (hflag : opt.isSet = none) {set : Bytes → σ → σ}
    (hvalue : opt.value = some set) (vars : σ) (value : Bytes) (args : List Bytes) :
    parseOptions options vars ([45, c] :: value :: args) = parseOptions options (set value vars) args := by
  have hne : [45, c] ≠ str "--" := fun he => hc (List.cons.inj (List.cons.inj he).2).1
  have hread : readShortOptions options (some value) vars [c] = .ok (set value vars, true) := by
    rw [readShortOptions]
    simp only [hfind, hvalue, OptionDef.setFlag, hflag]
    rfl
  rw [parseOptions, if_neg (by simp), if_neg hne]
  dsimp only
  rw [if_neg (by simpa using hne), List.drop_succ_cons, List.drop_zero, List.head?_cons, hread]

end

/-- `-k` and `--key-name` pointing to one variable. -/
def keyNameOptions {σ : Type} (set : Bytes → σ → σ) : List (OptionDef σ) :=
  [{ name := str "-k", value := some set }, { name := str "--key-name", value := some set }]

example : parseOptions (keyNameOptions fun value _ => some value) none
    [str "-kfoo", str "--key-name=bar", str "--", str "-x"] = .ok (some (str "bar"), [str "-x"]) := by
  decide +kernel

end GitCrypt
