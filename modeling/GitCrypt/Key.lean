import GitCrypt.Crypto
import GitCrypt.Library.DescMap

/-! Key entries and key files of key.cpp: the map of versions, the tagged file format,
the legacy format and key names. -/
namespace GitCrypt
open Iostream

instance uint32LinearOrder : LinearOrder UInt32 where
  le_refl := UInt32.le_refl
  le_trans _ _ _ := UInt32.le_trans
  le_antisymm _ _ := UInt32.le_antisymm
  le_total := UInt32.le_total
  lt_iff_le_not_ge a b := by
    simp only [UInt32.lt_iff_toNat_lt, UInt32.le_iff_toNat_le]
    omega
  toDecidableLE := inferInstance
  toDecidableEq := inferInstance
  toDecidableLT := inferInstance

def keyNameMaxLen : UInt32 := 128
def maxFieldLen : UInt32 := 2 ^ 20
def formatVersion : UInt32 := 2
def headerFieldKeyName : UInt32 := 1
def keyFieldVersion : UInt32 := 1
def keyFieldAesKey : UInt32 := 3
def keyFieldHmacKey : UInt32 := 5

/-- The fields of an entry have different ids. -/
@[simp] theorem keyField_ne :
    (keyFieldVersion ≠ keyFieldAesKey ∧ keyFieldVersion ≠ keyFieldHmacKey) ∧
      (keyFieldAesKey ≠ keyFieldVersion ∧ keyFieldAesKey ≠ keyFieldHmacKey) ∧
      keyFieldHmacKey ≠ keyFieldVersion ∧ keyFieldHmacKey ≠ keyFieldAesKey := by
  decide

/-- The exception classes `Key_file::Malformed` and `Key_file::Incompatible`. -/
abbrev KeyError := Tlv.Error

/-- `std::isalnum` in the C locale. -/
def isAlnum (c : UInt8) : Bool :=
  (48 ≤ c && c ≤ 57) || (65 ≤ c && c ≤ 90) || (97 ≤ c && c ≤ 122)

/-- The character loop of `validate_key_name`. -/
def validateKeyChars : Nat → Bytes → Except String Unit
  | _, [] => .ok ()
  | len, c :: rest =>
    if !isAlnum c && c != 45 && c != 95 then
      .error "Key names may contain only A-Z, a-z, 0-9, '-', and '_'"
    else if keyNameMaxLen.toNat < len + 1 then .error "Key name is too long"
    else validateKeyChars (len + 1) rest

/-- `validate_key_name` on a C string; an error is a false result with its reason. -/
def validateKeyName (keyName : Bytes) : Except String Unit :=
  if keyName = [] then .error "Key name may not be empty"
  else if keyName = str "default" then .error "`default' is not a legal key name"
  else validateKeyChars 0 keyName

/-- The characters a key name may have: ASCII letters, digits, '-' and '_'. -/
def KeyNameChar (c : UInt8) : Prop := isAlnum c = true ∨ c = 45 ∨ c = 95

instance : DecidablePred KeyNameChar := fun _ => inferInstanceAs (Decidable (_ ∨ _ ∨ _))

/-- The names `validate_key_name` accepts. -/
def ValidKeyName (keyName : Bytes) : Prop := validateKeyName keyName = .ok ()

instance : DecidablePred ValidKeyName := fun _ => inferInstanceAs (Decidable (_ = _))

/-- The default key, or a name `validate_key_name` accepts. -/
def LegalKeyName (keyName : Option Bytes) : Prop := ∀ name, keyName = some name → ValidKeyName name

private theorem validateKeyChars_ok {len : Nat} {name : Bytes} (hl : len ≤ keyNameMaxLen.toNat) :
    validateKeyChars len name = .ok () ↔
      (∀ c ∈ name, KeyNameChar c) ∧ len + name.length ≤ keyNameMaxLen.toNat := by
  induction name generalizing len with
  | nil => simp [validateKeyChars, hl]
  | cons c name ih =>
    unfold validateKeyChars
    rw [List.forall_mem_cons, List.length_cons]
    by_cases hc : KeyNameChar c
    · have h1 : (!isAlnum c && c != 45 && c != 95) = false := by
        rcases hc with h | rfl | rfl <;> simp_all
      simp only [h1, hc, true_and, Bool.false_eq_true, if_false]
      split_ifs with h2
      · simp only [false_iff, not_and]
        omega
      · rw [ih (by omega)]
        constructor <;> rintro ⟨h, h'⟩ <;> exact ⟨h, by omega⟩
    · have h1 : (!isAlnum c && c != 45 && c != 95) = true := by
        simp only [KeyNameChar, not_or] at hc
        simp [hc]
      simp [h1, hc]

/-- The accepted names in closed form. -/
theorem validKeyName_iff {name : Bytes} :
    ValidKeyName name ↔ name ≠ [] ∧ name ≠ str "default" ∧ (∀ c ∈ name, KeyNameChar c) ∧
      name.length ≤ 128 := by
  unfold ValidKeyName validateKeyName
  split_ifs with h1 h2
  · simp [h1]
  · simp [h2]
  · rw [validateKeyChars_ok (by decide)]
    simp [h1, h2, keyNameMaxLen]

structure Entry where
  version : UInt32
  aesKey : Buffer aesKeyLen
  hmacKey : Buffer hmacKeyLen
  deriving DecidableEq

/-- What `random_bytes` gives for the two keys of an entry; none where it throws. -/
structure Draw where
  aesKey : Option (Buffer aesKeyLen)
  hmacKey : Option (Buffer hmacKeyLen)

def randomBytesError : Exception := .cryptoError "random_bytes" ""

namespace Entry

/-- The default constructor. -/
def zero : Entry := ⟨0, Buffer.zero, Buffer.zero⟩

/-- A field of one fixed length; the source never refuses its payload. -/
def fixedField (len : UInt32) (set : Entry → Bytes → Entry) : Tlv.Known Entry :=
  ⟨(· = len), fun _ => true, set, id⟩

/-- The fields `Entry::load` knows. -/
def field (fieldId : UInt32) : Option (Tlv.Known Entry) :=
  if fieldId = keyFieldVersion then
    some (fixedField 4 fun e bytes => { e with version := loadBe32 bytes })
  else if fieldId = keyFieldAesKey then
    some (fixedField 32 fun e bytes => { e with aesKey := e.aesKey.blit 0 bytes })
  else if fieldId = keyFieldHmacKey then
    some (fixedField 64 fun e bytes => { e with hmacKey := e.hmacKey.blit 0 bytes })
  else none

def format : Tlv.Format Entry := ⟨be32, field, maxFieldLen⟩

def load (e : Entry) (input : IStream) : Entry × Except KeyError IStream :=
  format.readFields e input

/-- An exception leaves behind the bytes read so far. -/
def loadLegacy (e : Entry) (version : UInt32) (input : IStream) : Entry × Except KeyError IStream :=
  let e := { e with version }
  let (bytes, input) := input.read aesKeyLen
  let e := { e with aesKey := e.aesKey.blit 0 bytes }
  if input.gcount ≠ aesKeyLen then (e, .error .malformed)
  else
    let (bytes, input) := input.read hmacKeyLen
    let e := { e with hmacKey := e.hmacKey.blit 0 bytes }
    if input.gcount ≠ hmacKeyLen then (e, .error .malformed)
    else match input.peek with
      | (none, input) => (e, .ok input)
      | (some _, _) => (e, .error .malformed)

/-- The bytes `Entry::store` writes. -/
def store (e : Entry) : Bytes :=
  storeBe32 keyFieldVersion ++ storeBe32 4 ++ storeBe32 e.version ++
    storeBe32 keyFieldAesKey ++ storeBe32 32 ++ e.aesKey.toBytes ++
    storeBe32 keyFieldHmacKey ++ storeBe32 64 ++ e.hmacKey.toBytes ++ storeBe32 0

/-- `Entry::generate`: the version is set first, so it stands whatever `random_bytes` does. -/
def generate (e : Entry) (version : UInt32) (draw : Draw) : Entry × Except Exception Unit :=
  let e := { e with version }
  match draw.aesKey with
  | none => (e, .error randomBytesError)
  | some aesKey =>
    let e := { e with aesKey }
    match draw.hmacKey with
    | none => (e, .error randomBytesError)
    | some hmacKey => ({ e with hmacKey }, .ok ())

theorem generate_version (e : Entry) (version : UInt32) (draw : Draw) :
    (e.generate version draw).1.version = version := by
  unfold generate
  dsimp only
  split
  · rfl
  · split <;> rfl

end Entry

/-- `Key_file`. An entry is always stored under its own version. -/
structure KeyFile where
  entries : DescMap UInt32 Entry
  keyName : Bytes
  keyed : ∀ p ∈ entries.toList, p.2.version = p.1
  deriving DecidableEq

namespace KeyFile

@[ext] theorem ext {kf kf' : KeyFile} (he : kf.entries = kf'.entries) (hn : kf.keyName = kf'.keyName) :
    kf = kf' := by
  cases kf; cases kf'; simp_all

def empty : KeyFile := ⟨.empty, [], by simp [DescMap.empty]⟩

def isEmpty (kf : KeyFile) : Bool := kf.entries.toList.isEmpty

def get (kf : KeyFile) (version : UInt32) : Option Entry := kf.entries.find version

def latest (kf : KeyFile) : Except Exception UInt32 :=
  match kf.entries.first? with
  | none => .error (.invalidArgument "Key_file::latest")
  | some (version, _) => .ok version

def getLatest (kf : KeyFile) : Option Entry :=
  match kf.latest with
  | .error _ => none
  | .ok version => kf.get version

/-- `entries[entry.version] = entry`. -/
def add (kf : KeyFile) (e : Entry) : KeyFile where
  entries := kf.entries.insert e.version e
  keyName := kf.keyName
  keyed p hp := by
    rcases DescMap.mem_insert hp with rfl | hp
    · rfl
    · exact kf.keyed p hp

/-- `entries[version]`, default-constructed when absent. -/
def slot (kf : KeyFile) (version : UInt32) : Entry := (kf.get version).getD Entry.zero

def setKeyName (kf : KeyFile) (keyName : Option Bytes) : KeyFile :=
  { kf with keyName := keyName.getD [] }

/-- The C string behind `get_key_name`; null for the default key. -/
def getKeyName (kf : KeyFile) : Option Bytes :=
  if kf.keyName = [] then none else some (cStr kf.keyName)

/-- `entries[0].load_legacy(0, in)`: the entry is there even if the load throws. -/
def loadLegacy (kf : KeyFile) (input : IStream) : KeyFile × Except KeyError IStream :=
  let (e, res) := (kf.slot 0).loadLegacy 0 input
  (kf.add e, res)

def generate (kf : KeyFile) (draw : Draw) : KeyFile × Except Exception Unit :=
  let version := match kf.latest with
    | .error _ => 0
    | .ok version => version + 1
  let (e, res) := (kf.slot version).generate version draw
  (kf.add e, res)

/-- The key name field. A refused name is cleared. -/
def keyNameField : Tlv.Known Bytes :=
  ⟨(· ≤ keyNameMaxLen), fun bytes => decide (ValidKeyName (cStr bytes)), fun _ bytes => bytes,
    fun _ => []⟩

/-- The one header field known. -/
def headerField (fieldId : UInt32) : Option (Tlv.Known Bytes) :=
  if fieldId = headerFieldKeyName then some keyNameField else none

def headerFormat : Tlv.Format Bytes := ⟨be32, headerField, maxFieldLen⟩

def loadHeader (kf : KeyFile) (input : IStream) : KeyFile × Except KeyError IStream :=
  let (keyName, res) := headerFormat.readFields kf.keyName input
  ({ kf with keyName }, res)

theorem peek_rest (input : IStream) : input.peek.2.rest = input.rest := by
  unfold IStream.peek
  split
  · split <;> rfl
  · rfl

/-- The loop of `Key_file::load`: entries until the end of the input. -/
def loadEntries (kf : KeyFile) (input : IStream) : KeyFile × Except KeyError IStream :=
  match input.peek.1 with
  | none => (kf, .ok input.peek.2)
  | some _ =>
    match _h : Entry.zero.load input.peek.2 with
    | (_, .error e) => (kf, .error e)
    | (entry, .ok input) => loadEntries (kf.add entry) input
termination_by input.rest.length
decreasing_by
  have h := Entry.format.readFields_shorter _h
  rwa [peek_rest] at h

def preambleMagic : Bytes := 0 :: str "GITCRYPTKEY"

def load (kf : KeyFile) (input : IStream) : KeyFile × Except KeyError IStream :=
  let (preamble, input) := input.read 16
  if input.gcount ≠ 16 then (kf, .error .malformed)
  else if preamble.take 12 ≠ preambleMagic then (kf, .error .malformed)
  else if loadBe32 (preamble.drop 12) ≠ formatVersion then (kf, .error .incompatible)
  else match kf.loadHeader input with
    | (kf, .error e) => (kf, .error e)
    | (kf, .ok input) => kf.loadEntries input

/-- The bytes `Key_file::store` writes: the entries in the order of the map. -/
def store (kf : KeyFile) : Bytes :=
  preambleMagic ++ storeBe32 formatVersion ++
    (if kf.keyName = [] then []
      else storeBe32 headerFieldKeyName ++ storeBe32 (UInt32.ofNat kf.keyName.length) ++ kf.keyName) ++
    storeBe32 0 ++ kf.entries.toList.flatMap fun p => p.2.store

@[simp] theorem get_empty (version : UInt32) : empty.get version = none := rfl

@[simp] theorem keyName_add (kf : KeyFile) (e : Entry) : (kf.add e).keyName = kf.keyName := rfl

theorem get_add (kf : KeyFile) (e : Entry) (version : UInt32) :
    (kf.add e).get version = if e.version = version then some e else kf.get version :=
  DescMap.find_insert ..

@[simp] theorem get_add_self (kf : KeyFile) (e : Entry) : (kf.add e).get e.version = some e := by
  simp [get_add]

/-- An entry found under a version has that version. -/
theorem version_of_get {kf : KeyFile} {version : UInt32} {e : Entry} (h : kf.get version = some e) :
    e.version = version :=
  kf.keyed _ (DescMap.find_eq_some.mp h)

theorem ext_get {kf kf' : KeyFile} (hg : ∀ version, kf.get version = kf'.get version)
    (hn : kf.keyName = kf'.keyName) : kf = kf' :=
  ext (DescMap.ext hg) hn

theorem latest_eq_ok {kf : KeyFile} {version : UInt32} :
    kf.latest = .ok version ↔ ∃ e, kf.get version = some e ∧
      ∀ v, (kf.get v).isSome → v ≤ version := by
  unfold latest
  constructor
  · intro h
    split at h
    · cases h
    · rename_i v e hf
      cases h
      obtain ⟨hget, hle⟩ := DescMap.first?_eq_some hf
      refine ⟨e, hget, fun v hv => ?_⟩
      obtain ⟨e', he'⟩ := Option.isSome_iff_exists.mp hv
      exact hle v e' he'
  · rintro ⟨e, hget, hle⟩
    rw [DescMap.first?_of_find hget fun k' a' h => hle k' (by rw [get, h]; rfl)]

theorem latest_eq_error {kf : KeyFile} {x : Exception} (h : kf.latest = .error x) :
    ∀ version, kf.get version = none := by
  unfold latest at h
  split at h
  · rename_i hf
    intro version
    rw [get, DescMap.first?_eq_none.mp hf, DescMap.find_empty]
  · cases h

/-- `get_latest` is the entry with the greatest version. -/
theorem getLatest_eq_some {kf : KeyFile} {e : Entry} :
    kf.getLatest = some e ↔ kf.get e.version = some e ∧ ∀ v, (kf.get v).isSome → v ≤ e.version := by
  unfold getLatest
  constructor
  · intro h
    split at h
    · cases h
    · rename_i version hl
      obtain ⟨e', he', hle⟩ := latest_eq_ok.mp hl
      rw [h] at he'
      cases he'
      rw [version_of_get h]
      exact ⟨h, hle⟩
  · rintro ⟨hget, hle⟩
    rw [latest_eq_ok.mpr ⟨e, hget, hle⟩]
    exact hget

theorem getLatest_eq_none {kf : KeyFile} : kf.getLatest = none ↔ ∀ version, kf.get version = none := by
  constructor
  · intro h
    unfold getLatest at h
    split at h
    · rename_i hl
      exact latest_eq_error hl
    · rename_i version hl
      obtain ⟨e, he, -⟩ := latest_eq_ok.mp hl
      rw [h] at he
      cases he
  · intro h
    cases he : kf.getLatest with
    | none => rfl
    | some e => exact absurd (getLatest_eq_some.mp he).1 (by simp [h])

end KeyFile
end GitCrypt
