import GitCrypt.EncryptedFiles
import GitCrypt.Gpg
import GitCrypt.Runs
import GitCrypt.Library.Columns

/-! The key listings of gpg: which of their fingerprints `gpg_lookup_key` and `gpg_list_secret_keys`
return. -/
namespace GitCrypt

/-! ### Listings -/

/-- A line of `--with-colons`. -/
abbrev Record := Columns.Record (58 : UInt8) 10

/-- What is listed: the public keys, or the secret ones. -/
inductive Keyring where
  | pub
  | sec
  deriving DecidableEq

namespace Keyring

def primaryTag : Keyring → Bytes
  | .pub => str "pub"
  | .sec => str "sec"

def subkeyTag : Keyring → Bytes
  | .pub => str "sub"
  | .sec => str "ssb"

/-- A record of neither a key nor a fingerprint. -/
def IsOther (keyring : Keyring) (r : Record) : Prop :=
  r.tag ≠ keyring.primaryTag ∧ r.tag ≠ keyring.subkeyTag ∧ r.tag ≠ str "fpr"

end Keyring

/-- The record of a key, that of its fingerprint, and what else there is about the key. -/
structure KeyRecords (keyring : Keyring) (tag : Bytes) where
  key : Record
  key_tag : key.tag = tag
  fpr : Record
  fpr_tag : fpr.tag = str "fpr"
  fingerprint : Bytes
  fpr_column : fpr.column 9 = some fingerprint
  others : List Record
  others_tag : ∀ r ∈ others, keyring.IsOther r

def KeyRecords.records {keyring : Keyring} {tag : Bytes} (key : KeyRecords keyring tag) : List Record :=
  key.key :: key.fpr :: key.others

/-- A primary key with its subkeys. -/
structure KeyBlock (keyring : Keyring) where
  primary : KeyRecords keyring keyring.primaryTag
  subkeys : List (KeyRecords keyring keyring.subkeyTag)

/-- What gpg lists: records about the whole of it, and then the keys. -/
structure Listing (keyring : Keyring) where
  header : List Record
  header_tag : ∀ r ∈ header, keyring.IsOther r
  keys : List (KeyBlock keyring)

variable {keyring : Keyring}

def KeyBlock.records (block : KeyBlock keyring) : List Record :=
  block.primary.records ++ block.subkeys.flatMap KeyRecords.records

def Listing.records (listing : Listing keyring) : List Record :=
  listing.header ++ listing.keys.flatMap KeyBlock.records

/-- The lines of records, as gpg prints them. -/
def printed (records : List Record) : Bytes := records.flatMap fun r => r.line ++ [10]

theorem splitLines_printed (records : List Record) : splitLines 10 (printed records) = records.map (·.line) := by
  induction records with
  | nil => rfl
  | cons r records ih =>
    change splitLines 10 (r.line ++ [10] ++ printed records) = _
    rw [List.append_assoc, List.singleton_append, splitLines_append (r.eol_notMem_line (by decide)), ih, List.map_cons]

/-! ### Columns -/

private theorem gpgNthColumn_columns {column : Bytes} {columns : List Bytes}
    (h : ∀ c ∈ column :: columns, (58 : UInt8) ∉ c) {n : Nat} {found : Bytes}
    (hfound : (column :: columns)[n]? = some found) :
    gpgNthColumn (column ++ columns.flatMap (58 :: ·)) n = .ok found := by
  rw [List.forall_mem_cons] at h
  induction n generalizing column columns with
  | zero =>
    obtain rfl : column = found := Option.some.inj hfound
    cases columns with
    | nil =>
      rw [List.flatMap_nil, List.append_nil]
      exact congrArg Except.ok (Columns.takeWhile_last h.1)
    | cons next columns => exact congrArg Except.ok (Columns.takeWhile_column h.1 _)
  | succ n ih =>
    cases columns with
    | nil => cases hfound
    | cons next columns =>
      have hnext := List.forall_mem_cons.mp h.2
      have hrest : (column ++ (next :: columns).flatMap (58 :: ·)).dropWhile (· ≠ 58) =
          58 :: (next ++ columns.flatMap (58 :: ·)) := Columns.dropWhile_column h.1 _
      rw [gpgNthColumn, if_pos (by simp), hrest]
      exact ih hnext hfound

theorem gpgNthColumn_line {r : Record} {n : Nat} {found : Bytes} (h : r.column n = some found) :
    gpgNthColumn r.line n = .ok found :=
  gpgNthColumn_columns (fun c hc => (r.plain c hc).1) h

/-! ### Reading the records -/

/-- The lines that gpg prints of the tags that are looked for. -/
theorem tag_line (r : Record) {tag : Bytes} (hlength : tag.length = 3) (h : (58 : UInt8) ∉ tag) :
    r.line.take 4 = tag ++ [58] ↔ r.tag = tag := by
  have htake := r.take_line_iff h
  rwa [hlength] at htake

theorem pub_line (r : Record) : r.line.take 4 = str "pub:" ↔ r.tag = str "pub" :=
  @tag_line r (str "pub") rfl (by decide)

theorem sub_line (r : Record) : r.line.take 4 = str "sub:" ↔ r.tag = str "sub" :=
  @tag_line r (str "sub") rfl (by decide)

theorem fpr_line (r : Record) : r.line.take 4 = str "fpr:" ↔ r.tag = str "fpr" :=
  @tag_line r (str "fpr") rfl (by decide)

/-- One more fingerprint in front of the others. -/
def consFingerprint (fingerprint : Bytes) : Except Exception (List Bytes) → Except Exception (List Bytes) :=
  Except.map (fingerprint :: ·)

section
variable {r : Record} {records : List Record} {lines : List Bytes} {isPubkey : Bool} {fingerprint : Bytes}

private theorem readPublicKeys_pub (h : r.tag = str "pub") :
    readPublicKeys isPubkey (r.line :: lines) = readPublicKeys true lines := by
  rw [readPublicKeys, if_pos ((pub_line r).mpr h)]

private theorem readPublicKeys_sub (h : r.tag = str "sub") :
    readPublicKeys isPubkey (r.line :: lines) = readPublicKeys false lines := by
  rw [readPublicKeys, if_neg (by rw [pub_line, h]; decide), if_pos ((sub_line r).mpr h)]

private theorem readPublicKeys_fpr (h : r.tag = str "fpr") (hcolumn : r.column 9 = some fingerprint) :
    readPublicKeys true (r.line :: lines) = consFingerprint fingerprint (readPublicKeys true lines) := by
  rw [readPublicKeys, if_neg (by rw [pub_line, h]; decide), if_neg (by rw [sub_line, h]; decide),
    if_pos ⟨rfl, (fpr_line r).mpr h⟩, gpgNthColumn_line hcolumn]
  cases readPublicKeys true lines <;> rfl

theorem readPublicKeys_skip (hpub : r.tag ≠ str "pub") (hsub : r.tag ≠ str "sub")
    (hfpr : isPubkey = true → r.tag ≠ str "fpr") :
    readPublicKeys isPubkey (r.line :: lines) = readPublicKeys isPubkey lines := by
  rw [readPublicKeys, if_neg (by rwa [pub_line]), if_neg (by rwa [sub_line]), if_neg]
  rintro ⟨his, hline⟩
  exact hfpr his ((fpr_line r).mp hline)

theorem readPublicKeys_others (h : ∀ r ∈ records, Keyring.pub.IsOther r) :
    readPublicKeys isPubkey (records.map (·.line) ++ lines) = readPublicKeys isPubkey lines := by
  induction records with
  | nil => rfl
  | cons r records ih =>
    rw [List.forall_mem_cons] at h
    obtain ⟨⟨hpub, hsub, hfpr⟩, hrest⟩ := h
    rw [List.map_cons, List.cons_append, readPublicKeys_skip hpub hsub fun _ => hfpr, ih hrest]

/-- The records of a primary key add its fingerprint. -/
private theorem readPublicKeys_primary (key : KeyRecords .pub Keyring.pub.primaryTag) :
    readPublicKeys isPubkey (key.records.map (·.line) ++ lines) =
      consFingerprint key.fingerprint (readPublicKeys true lines) := by
  rw [KeyRecords.records, List.map_cons, List.map_cons, List.cons_append, List.cons_append,
    readPublicKeys_pub key.key_tag, readPublicKeys_fpr key.fpr_tag key.fpr_column,
    readPublicKeys_others key.others_tag]

/-- Those of a subkey add nothing. -/
private theorem readPublicKeys_subkey (key : KeyRecords .pub Keyring.pub.subkeyTag) :
    readPublicKeys isPubkey (key.records.map (·.line) ++ lines) = readPublicKeys false lines := by
  have hskip (lines : List Bytes) : readPublicKeys false (key.fpr.line :: lines) = readPublicKeys false lines :=
    readPublicKeys_skip (by rw [key.fpr_tag]; decide) (by rw [key.fpr_tag]; decide) nofun
  rw [KeyRecords.records, List.map_cons, List.map_cons, List.cons_append, List.cons_append,
    readPublicKeys_sub key.key_tag, hskip, readPublicKeys_others key.others_tag]

private theorem readPublicKeys_subkeys (subkeys : List (KeyRecords .pub Keyring.pub.subkeyTag)) :
    ∃ isPubkey', readPublicKeys isPubkey ((subkeys.flatMap KeyRecords.records).map (·.line) ++ lines) =
      readPublicKeys isPubkey' lines := by
  induction subkeys generalizing isPubkey with
  | nil => exact ⟨isPubkey, rfl⟩
  | cons key subkeys ih =>
    rw [List.flatMap_cons, List.map_append, List.append_assoc, readPublicKeys_subkey]
    exact ih

private theorem readPublicKeys_keys (keys : List (KeyBlock .pub)) (isPubkey : Bool) :
    readPublicKeys isPubkey ((keys.flatMap KeyBlock.records).map (·.line)) =
      .ok (keys.map (·.primary.fingerprint)) := by
  induction keys generalizing isPubkey with
  | nil => rfl
  | cons block keys ih =>
    rw [List.flatMap_cons, KeyBlock.records, List.append_assoc, List.map_append, readPublicKeys_primary,
      List.map_append]
    obtain ⟨isPubkey', hsubkeys⟩ := @readPublicKeys_subkeys ((keys.flatMap KeyBlock.records).map (·.line)) true
      block.subkeys
    rw [hsubkeys, ih]
    rfl

private theorem readFingerprints_fpr (h : r.tag = str "fpr") (hcolumn : r.column 9 = some fingerprint) :
    readFingerprints (r.line :: lines) = consFingerprint fingerprint (readFingerprints lines) := by
  rw [readFingerprints, if_pos ((fpr_line r).mpr h), gpgNthColumn_line hcolumn]
  cases readFingerprints lines <;> rfl

theorem readFingerprints_skip (h : r.tag ≠ str "fpr") :
    readFingerprints (r.line :: lines) = readFingerprints lines := by
  rw [readFingerprints, if_neg (by rwa [fpr_line])]

theorem readFingerprints_others (h : ∀ r ∈ records, keyring.IsOther r) :
    readFingerprints (records.map (·.line) ++ lines) = readFingerprints lines := by
  induction records with
  | nil => rfl
  | cons r records ih =>
    rw [List.forall_mem_cons] at h
    rw [List.map_cons, List.cons_append, readFingerprints_skip h.1.2.2, ih h.2]

/-- The records of any key add its fingerprint. -/
theorem readFingerprints_key {tag : Bytes} (htag : tag ≠ str "fpr") (key : KeyRecords keyring tag) :
    readFingerprints (key.records.map (·.line) ++ lines) =
      consFingerprint key.fingerprint (readFingerprints lines) := by
  rw [KeyRecords.records, List.map_cons, List.map_cons, List.cons_append, List.cons_append,
    readFingerprints_skip (by rwa [key.key_tag]), readFingerprints_fpr key.fpr_tag key.fpr_column,
    readFingerprints_others key.others_tag]

private theorem readFingerprints_subkeys {tag : Bytes} (htag : tag ≠ str "fpr")
    (subkeys : List (KeyRecords keyring tag)) :
    readFingerprints ((subkeys.flatMap KeyRecords.records).map (·.line) ++ lines) =
      (readFingerprints lines).map (subkeys.map (·.fingerprint) ++ ·) := by
  induction subkeys with
  | nil =>
    rw [List.flatMap_nil, List.map_nil, List.nil_append]
    cases readFingerprints lines <;> rfl
  | cons key subkeys ih =>
    rw [List.flatMap_cons, List.map_append, List.append_assoc, readFingerprints_key htag, ih]
    cases readFingerprints lines <;> rfl

/-- The fingerprints of a primary key and its subkeys. -/
def KeyBlock.fingerprints (block : KeyBlock keyring) : List Bytes :=
  block.primary.fingerprint :: block.subkeys.map (·.fingerprint)

private theorem readFingerprints_keys (keys : List (KeyBlock .sec)) :
    readFingerprints ((keys.flatMap KeyBlock.records).map (·.line)) = .ok (keys.flatMap KeyBlock.fingerprints) := by
  induction keys with
  | nil => rfl
  | cons block keys ih =>
    rw [List.flatMap_cons, KeyBlock.records, List.append_assoc, List.map_append,
      readFingerprints_key (by decide), List.map_append, readFingerprints_subkeys (by decide), ih]
    rfl

end

/-! ### What the program finds -/

section
variable {env : Env} {w w' : World} {query output : Bytes}

/-- The subprocess gpg itself can be run, whatever git said of its name. -/
def GpgRuns (env : Env) (w : World) : Prop := env.fails (gpgGetExecutable env w).2.ops = false

private theorem gpgGetExecutable_ok (env : Env) (w : World) : ∃ program, (gpgGetExecutable env w).1 = .ok program := by
  unfold gpgGetExecutable
  rcases hconfig : getGitConfig env (str "gpg.program") w with ⟨e | program, w'⟩
  · exact ⟨str "gpg", by rw [Prog.tryCatch_of_error hconfig]; rfl⟩
  · exact ⟨program, by rw [Prog.tryCatch_of_ok hconfig]⟩

theorem GpgRuns.result {α : Type} {command : Bytes → Command} {k : Nat × Bytes → Action α}
    {result : Except Exception α} (h : GpgRuns env w) (hcommand : ∀ program w, (command program).run env w = (0, output, w))
    (hk : ∀ w, (k (0, output) w).1 = result) :
    ((gpgGetExecutable env >>= fun program => execCommand env (command program) >>= k) w).1 = result := by
  obtain ⟨program, hprogram⟩ := gpgGetExecutable_ok env w
  have hexecutable : gpgGetExecutable env w = (.ok program, (gpgGetExecutable env w).2) := Prod.ext hprogram rfl
  rw [Prog.bind_of_ok hexecutable, Prog.bind_of_ok (execCommand_run h (hcommand program _))]
  exact hk _

private theorem gpgLookupKey_run (hkeys : env.publicKeys query = some output) (hruns : GpgRuns env w) :
    (gpgLookupKey env query w).1 = readPublicKeys false (splitLines 10 output) := by
  have hcommand (program : Bytes) (w : World) :
      (Command.gpgListKeys program query).run env w = (0, output, w) := by
    rw [Command.run, hkeys]
  refine hruns.result hcommand fun w₁ => ?_
  dsimp only
  rw [if_neg (by decide)]
  cases readPublicKeys false (splitLines 10 output) <;> rfl

private theorem gpgListSecretKeys_run (hruns : GpgRuns env w) :
    (gpgListSecretKeys env w).1 = readFingerprints (splitLines 10 env.secretKeys) := by
  have hsuccess (e : Exception) (w : World) : requireSuccess 0 e w = (.ok (), w) := rfl
  have hcommand (program : Bytes) (w : World) :
      (Command.gpgListSecretKeys program).run env w = (0, env.secretKeys, w) := rfl
  refine hruns.result hcommand fun w₁ => ?_
  dsimp only
  rw [Prog.bind_of_ok (hsuccess _ _)]
  cases readFingerprints (splitLines 10 env.secretKeys) <;> rfl

/-- The keys of a public listing are looked up by their own fingerprints, in its order, and none of
their subkeys'. In a listing of their secret keys all of these are found. -/
theorem gpgLookupKey_primary {publicKeys : Listing .pub} {secretKeys : Listing .sec}
    (hpublic : env.publicKeys query = some (printed publicKeys.records))
    (hsecret : env.secretKeys = printed secretKeys.records) (hruns : GpgRuns env w) (hruns' : GpgRuns env w')
    (hcorresponds : ∀ key ∈ publicKeys.keys, ∃ secretKey ∈ secretKeys.keys,
      secretKey.primary.fingerprint = key.primary.fingerprint) :
    (gpgLookupKey env query w).1 = .ok (publicKeys.keys.map (·.primary.fingerprint)) ∧
      ∃ fingerprints, (gpgListSecretKeys env w').1 = .ok fingerprints ∧
        ∀ key ∈ publicKeys.keys, key.primary.fingerprint ∈ fingerprints := by
  constructor
  · rw [gpgLookupKey_run hpublic hruns, splitLines_printed, Listing.records, List.map_append,
      readPublicKeys_others publicKeys.header_tag, readPublicKeys_keys]
  · refine ⟨secretKeys.keys.flatMap KeyBlock.fingerprints, ?_, fun key hkey => ?_⟩
    · rw [gpgListSecretKeys_run hruns', hsecret, splitLines_printed, Listing.records, List.map_append,
        readFingerprints_others secretKeys.header_tag, readFingerprints_keys]
    · obtain ⟨secretKey, hmem, hsame⟩ := hcorresponds key hkey
      rw [← hsame]
      exact List.mem_flatMap_of_mem hmem List.mem_cons_self

/-- A key with its fingerprint and a name, as gpg lists it. -/
private def keyRecords (keyring : Keyring) (tag fingerprint : Bytes)
    (htag : (58 : UInt8) ∉ tag ∧ 10 ∉ tag) (hfingerprint : (58 : UInt8) ∉ fingerprint ∧ 10 ∉ fingerprint) :
    KeyRecords keyring tag where
  key := ⟨tag, [str "u"], by simp, by simp only [List.forall_mem_cons]; exact ⟨htag, by decide, nofun⟩⟩
  key_tag := rfl
  fpr := ⟨str "fpr", List.replicate 8 [] ++ [fingerprint, []], by simp, by
    simp only [List.replicate, List.cons_append, List.nil_append, List.forall_mem_cons]
    exact ⟨by decide, by decide, by decide, by decide, by decide, by decide, by decide, by decide, by decide,
      hfingerprint, by decide, nofun⟩⟩
  fpr_tag := rfl
  fingerprint := fingerprint
  fpr_column := rfl
  others := [⟨str "uid", [str "Alice"], by simp, by decide⟩]
  others_tag := by
    rw [List.forall_mem_singleton]
    cases keyring <;> exact ⟨by decide, by decide, by decide⟩

/-- Alice's key with a subkey, after the record of the trust database. -/
private def aliceListing (keyring : Keyring) : Listing keyring where
  header := [⟨str "tru", [[]], by simp, by decide⟩]
  header_tag := by
    rw [List.forall_mem_singleton]
    cases keyring <;> exact ⟨by decide, by decide, by decide⟩
  keys := [⟨keyRecords keyring _ (str "AB12") (by cases keyring <;> decide) (by decide),
    [keyRecords keyring _ (str "CD34") (by cases keyring <;> decide) (by decide)]⟩]

private def aliceEnv : Env :=
  { freshEnv with
    publicKeys := fun _ => some (printed (aliceListing .pub).records)
    secretKeys := printed (aliceListing .sec).records }

theorem gpgLookupKey_primary_alice :
    (gpgLookupKey aliceEnv (str "alice") (freshRepo.start aliceEnv)).1 = .ok [str "AB12"] ∧
      ∃ fingerprints, (gpgListSecretKeys aliceEnv (freshRepo.start aliceEnv)).1 = .ok fingerprints ∧
        ∀ key ∈ (aliceListing .pub).keys, key.primary.fingerprint ∈ fingerprints :=
  @gpgLookupKey_primary aliceEnv (freshRepo.start aliceEnv) (freshRepo.start aliceEnv) (str "alice")
    (aliceListing .pub) (aliceListing .sec) rfl rfl rfl rfl (by
      rintro key hkey
      obtain rfl := List.mem_singleton.mp hkey
      exact ⟨_, List.mem_singleton_self _, rfl⟩)

end

end GitCrypt
