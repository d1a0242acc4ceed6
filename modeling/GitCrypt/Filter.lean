import GitCrypt.Key
import GitCrypt.Library.ReadLoop

/-! The filters of commands.cpp from the loaded key file on: `clean` encrypts its input,
`smudge` and `diff` decrypt or copy it. Each ends with an exit status or an exception. -/
namespace GitCrypt
open Iostream

/-- The ten bytes every encrypted file starts with. -/
def fileMagic : Bytes := 0 :: str "GITCRYPT" ++ [0]

abbrev headerLen : Nat := 10 + nonceLen

/-- The version `decrypt_file_to_stdout` looks up; the file header does not carry one. -/
def decryptKeyVersion : UInt32 := 0

/-- What a filter does. `fed` is not in the source: the blocks given to AES, in order. -/
structure FilterRun where
  ending : Except Exception Nat
  cout : OStream
  clog : List String
  fed : List (Buffer blockLen)

/-- A CTR encryptor writing to standard output, and the exception that stopped it. -/
structure CtrOutput where
  aes : AesCtrEncryptor
  cout : OStream
  thrown : Option Exception := none

/-- `aes.process` on a buffer, then `cout.write`. -/
def CtrOutput.send (P : Primitives) (o : CtrOutput) (buffer : Bytes) : CtrOutput :=
  match o.aes.process P buffer with
  | (aes, .ok out) => { o with aes, cout := o.cout.write out }
  | (aes, .error e) => { o with aes, thrown := some e }

def CtrOutput.running (o : CtrOutput) : Bool := o.thrown.isNone

/-- The run that ends where the output stopped, or with `status` where nothing was thrown. -/
def CtrOutput.finish (o : CtrOutput) (status : Nat) (clog : List String) : FilterRun where
  ending := match o.thrown with
    | none => .ok status
    | some e => .error e
  cout := o.cout
  clog := if o.running then clog else []
  fed := o.aes.ecb.fed

/-- What `clean` holds of the input read so far. `tempFile` is none until it is opened. -/
structure CleanInput where
  hmac : HmacSha1State
  fileSize : UInt64 := 0
  fileContents : Bytes := []
  tempFile : Option Bytes := none

/-- The body of the reading loop of `clean`. -/
def CleanInput.addBuffer (s : CleanInput) (buffer : Bytes) : CleanInput :=
  let s := { s with
    hmac := s.hmac.add buffer
    fileSize := s.fileSize + UInt64.ofNat buffer.length }
  if s.fileSize ≤ 8388608 then { s with fileContents := s.fileContents ++ buffer }
  else { s with tempFile := some (s.tempFile.getD [] ++ buffer) }

def CleanInput.read (hmacKey : Buffer hmacKeyLen) (cin : IStream) : CleanInput :=
  readWhile 1024 (·.fileSize < maxCryptBytes) addBuffer cin { hmac := { key := hmacKey } }

/-- The writing loops of `clean`: the part in memory, then the temporary file. -/
def CleanInput.send (P : Primitives) (s : CleanInput) (o : CtrOutput) : CtrOutput :=
  let o := forSlices 1024 CtrOutput.running (CtrOutput.send P) s.fileContents o
  match s.tempFile with
  | none => o
  | some bytes => readUntilEof 1024 CtrOutput.running (CtrOutput.send P) (IStream.ofBytes bytes) o

/-- `clean` once the key file is loaded. -/
def cleanWith (P : Primitives) (keyFile : KeyFile) (cin : IStream) : FilterRun :=
  match keyFile.getLatest with
  | none => ⟨.ok 1, {}, ["git-crypt: error: key file is empty"], []⟩
  | some key =>
    let s := CleanInput.read key.hmacKey cin
    if maxCryptBytes ≤ s.fileSize then
      ⟨.ok 1, {}, ["git-crypt: error: file too long to encrypt securely"], []⟩
    else
      let digest := s.hmac.get P
      let cout := (OStream.write {} fileMagic).write (digest.take nonceLen)
      (s.send P { aes := .new key.aesKey digest, cout }).finish 0 []

structure DecryptState extends CtrOutput where
  hmac : HmacSha1State

/-- The body of the loop of `decrypt_file_to_stdout`: the HMAC is over the decrypted bytes. -/
def DecryptState.receive (P : Primitives) (d : DecryptState) (buffer : Bytes) : DecryptState :=
  match d.aes.process P buffer with
  | (aes, .ok out) => { d with aes, cout := d.cout.write out, hmac := d.hmac.add out }
  | (aes, .error e) => { d with aes, thrown := some e }

def decryptFileToStdout (P : Primitives) (keyFile : KeyFile) (header : Bytes) (input : IStream) :
    FilterRun :=
  let nonce := header.drop 10
  match keyFile.get decryptKeyVersion with
  | none => ⟨.ok 1, {}, ["git-crypt: error: key version " ++ toString decryptKeyVersion ++
      " not available - please unlock with the latest version of the key."], []⟩
  | some key =>
    let d := readWhile 1024 (·.running) (DecryptState.receive P) input
      { aes := .new key.aesKey nonce, cout := {}, hmac := { key := key.hmacKey } }
    if leaklessEquals (d.hmac.get P) nonce nonceLen then d.finish 0 []
    else d.finish 1 ["git-crypt: error: encrypted file has been tampered with!"]

/-- What `smudge` and `diff` share: a file without the header is copied, with a warning. -/
def decryptOrCopy (warning : List String) (P : Primitives) (keyFile : KeyFile) (input : IStream) :
    FilterRun :=
  let (header, input) := input.read headerLen
  if input.gcount ≠ headerLen ∨ header.take 10 ≠ fileMagic then
    ⟨.ok 0, (OStream.write {} header).insertRdbuf input.rest, warning, []⟩
  else decryptFileToStdout P keyFile header input

def notEncryptedWarning : List String :=
  ["git-crypt: Warning: file not encrypted",
    "git-crypt: Run 'git-crypt status' to make sure all files are properly encrypted.",
    "git-crypt: If 'git-crypt status' reports no problems, then an older version of",
    "git-crypt: this file may be unencrypted in the repository's history.  If this",
    "git-crypt: file contains sensitive information, you can use 'git filter-branch'",
    "git-crypt: to remove its old versions from the history."]

/-- `smudge` once the key file is loaded. -/
def smudgeWith : Primitives → KeyFile → IStream → FilterRun := decryptOrCopy notEncryptedWarning

/-- `diff` once the key file is loaded and the file is open. -/
def diffWith : Primitives → KeyFile → IStream → FilterRun := decryptOrCopy []

/-- The encryption of a plaintext: the magic, the truncated HMAC, the masked bytes. -/
def encryptedBlob (P : Primitives) (key : Entry) (plain : Bytes) : Bytes :=
  let nonce := (P.hmacSha1 key.hmacKey plain).toBytes.take nonceLen
  fileMagic ++ nonce ++ ctrXor P key.aesKey nonce 0 plain

@[simp] theorem length_fileMagic : fileMagic.length = 10 := by decide

theorem length_nonce (P : Primitives) (key : Entry) (plain : Bytes) :
    ((P.hmacSha1 key.hmacKey plain).toBytes.take nonceLen).length = nonceLen := by
  simp [nonceLen, hmacLen]

theorem length_encryptedBlob (P : Primitives) (key : Entry) (plain : Bytes) :
    (encryptedBlob P key plain).length = 22 + plain.length := by
  simp [encryptedBlob, nonceLen, hmacLen]
  omega

/-- The reading loop has taken `consumed`, the spilled part after the part in memory. -/
structure CleanInput.Holds (hmacKey : Buffer hmacKeyLen) (consumed : Bytes) (s : CleanInput) :
    Prop where
  hmac : s.hmac = ⟨hmacKey, consumed⟩
  size : s.fileSize.toNat = consumed.length
  bytes : s.fileContents ++ s.tempFile.getD [] = consumed
  spilled : s.tempFile.isSome = true → 8388608 < consumed.length

private theorem lt_max {s : CleanInput} :
    s.fileSize < maxCryptBytes ↔ s.fileSize.toNat < 2 ^ 36 := UInt64.lt_iff_toNat_lt

theorem CleanInput.holds_addBuffer {hmacKey : Buffer hmacKeyLen} {consumed : Bytes} {s : CleanInput}
    (h : s.Holds hmacKey consumed) (hlt : s.fileSize < maxCryptBytes) {buffer : Bytes}
    (hb : buffer.length ≤ 1024) : (s.addBuffer buffer).Holds hmacKey (consumed ++ buffer) := by
  obtain ⟨hmac, hsize, hbytes, hspill⟩ := h
  rw [lt_max] at hlt
  have hsize' : (s.fileSize + UInt64.ofNat buffer.length).toNat = (consumed ++ buffer).length := by
    rw [UInt64.toNat_add, UInt64.toNat_ofNat_of_lt' (by change _ < 2 ^ 64; omega), List.length_append]
    omega
  have hle : s.fileSize + UInt64.ofNat buffer.length ≤ 8388608 ↔
      (consumed ++ buffer).length ≤ 8388608 := by
    rw [UInt64.le_iff_toNat_le, hsize']
    rfl
  unfold addBuffer
  simp only [hle]
  split_ifs with hc
  · -- nothing has been spilled yet, so the bytes go on at the end
    have hnone : s.tempFile = none := by
      rw [Option.eq_none_iff_forall_ne_some]
      intro t ht
      have := hspill (by rw [ht]; rfl)
      rw [List.length_append] at hc
      omega
    rw [hnone, Option.getD_none, List.append_nil] at hbytes
    exact ⟨by simp [HmacSha1State.add, hmac], hsize', by simp [hnone, hbytes], by simp [hnone]⟩
  · refine ⟨by simp [HmacSha1State.add, hmac], hsize', ?_, fun _ => not_le.mp hc⟩
    simp [← hbytes, List.append_assoc]

/-- The loop reads a short input whole, and a long one until the size reaches the limit. -/
theorem CleanInput.read_spec (hmacKey : Buffer hmacKeyLen) (plain : Bytes) :
    (plain.length < 2 ^ 36 → (CleanInput.read hmacKey (IStream.ofBytes plain)).Holds hmacKey plain) ∧
    (2 ^ 36 ≤ plain.length →
      maxCryptBytes ≤ (CleanInput.read hmacKey (IStream.ofBytes plain)).fileSize) := by
  have hinit : CleanInput.Holds hmacKey [] { hmac := { key := hmacKey } } :=
    ⟨rfl, rfl, rfl, by simp⟩
  have hstep : ∀ consumed (s : CleanInput) (chunk : Bytes), s.Holds hmacKey consumed →
      decide (s.fileSize < maxCryptBytes) = true → chunk.length ≤ 1024 →
      (s.addBuffer chunk).Holds hmacKey (consumed ++ chunk) :=
    fun _ _ _ h hg hb => holds_addBuffer h (of_decide_eq_true hg) hb
  obtain ⟨part, rest, hsplit, hinv, hend⟩ :=
    readWhile_invariant hstep (IStream.ofBytes_good plain) hinit
  change CleanInput.Holds hmacKey ([] ++ part) (CleanInput.read hmacKey (IStream.ofBytes plain)) at hinv
  rw [List.nil_append] at hinv
  rw [IStream.ofBytes_rest] at hsplit
  constructor
  · intro hlt
    rcases hend with rfl | hfalse
    · rw [List.append_nil] at hsplit
      exact hsplit ▸ hinv
    · refine absurd ?_ (of_decide_eq_false hfalse)
      have hlen := congrArg List.length hsplit
      rw [List.length_append] at hlen
      rw [lt_max]
      exact hinv.size ▸ by omega
  · intro hge
    rw [← UInt64.not_lt, lt_max, hinv.size, not_lt]
    rcases hend with rfl | hfalse
    · rwa [hsplit, List.append_nil] at hge
    · rw [← hinv.size, ← not_lt, ← lt_max]
      exact of_decide_eq_false hfalse

namespace CtrOutput
variable {P : Primitives} {key : Buffer aesKeyLen} {nonce header : Bytes}

/-- After `consumed`: its encryption stands behind the header, or the limit was reached. -/
def Sent (P : Primitives) (key : Buffer aesKeyLen) (nonce header consumed : Bytes)
    (o : CtrOutput) : Prop :=
  (o.thrown = none ∧ consumed.length < 2 ^ 32 ∧
      AesCtrEncryptor.At P key nonce o.aes consumed.length ∧
      o.cout = ⟨header ++ ctrXor P key nonce 0 consumed, false⟩) ∨
    (o.thrown = some tooMuchData ∧ 2 ^ 32 ≤ consumed.length ∧
      AesCtrEncryptor.At P key nonce o.aes (2 ^ 32))

theorem sent_new (rawKey : Buffer aesKeyLen) {digest : Bytes} (h : nonceLen ≤ digest.length)
    (header : Bytes) :
    Sent P rawKey (digest.take nonceLen) header [] ⟨.new rawKey digest, ⟨header, false⟩, none⟩ :=
  Or.inl ⟨rfl, by simp, AesCtrEncryptor.at_new rawKey h, by simp [ctrXor]⟩

theorem running_iff {o : CtrOutput} : o.running = true ↔ o.thrown = none := by
  simp [running]

theorem Sent.send {consumed : Bytes} {o : CtrOutput} (h : Sent P key nonce header consumed o)
    (hr : o.running = true) (buffer : Bytes) :
    Sent P key nonce header (consumed ++ buffer) (o.send P buffer) := by
  rw [running_iff] at hr
  rcases h with ⟨-, hlen, hat, hcout⟩ | ⟨hthrown, -⟩
  · by_cases hl : consumed.length + buffer.length < 2 ^ 32
    · obtain ⟨hres, hat'⟩ := AesCtrEncryptor.process_of_lt hat hl
      generalize hp : o.aes.process P buffer = r at hres hat'
      obtain ⟨aes, res⟩ := r
      simp only at hres
      subst hres
      refine Or.inl ⟨?_, ?_, ?_, ?_⟩
      · simp [CtrOutput.send, hp, hr]
      · simpa using hl
      · simpa [CtrOutput.send, hp] using hat'
      · simp [CtrOutput.send, hp, hcout, OStream.write, ctrXor_append]
    · obtain ⟨hres, hat'⟩ := AesCtrEncryptor.process_of_ge hat hlen (not_lt.mp hl)
      generalize hp : o.aes.process P buffer = r at hres hat'
      obtain ⟨aes, res⟩ := r
      simp only at hres
      subst hres
      refine Or.inr ⟨?_, ?_, ?_⟩
      · simp [CtrOutput.send, hp]
      · simpa using not_lt.mp hl
      · simpa [CtrOutput.send, hp] using hat'
  · rw [hr] at hthrown
    cases hthrown

/-- A loop that sends all of `bytes`, or stops at the limit. -/
theorem Sent.of_consumes {consumed bytes : Bytes} {o : CtrOutput}
    (h : Consumes (Sent P key nonce header) running consumed bytes o) :
    Sent P key nonce header (consumed ++ bytes) o := by
  obtain ⟨part, rest, rfl, hsent, hend⟩ := h
  rcases hend with rfl | hstop
  · rwa [List.append_nil]
  · rcases hsent with ⟨hnone, -⟩ | ⟨hthrown, hlen, hat⟩
    · rw [running_iff.mpr hnone] at hstop
      cases hstop
    · refine Or.inr ⟨hthrown, ?_, hat⟩
      simp only [List.length_append] at hlen ⊢
      omega

end CtrOutput

/-- The writing loops send the input as it was read. -/
theorem CleanInput.Holds.sent {P : Primitives} {key : Buffer aesKeyLen} {nonce header : Bytes}
    {hmacKey : Buffer hmacKeyLen} {plain : Bytes} {s : CleanInput} (h : s.Holds hmacKey plain)
    {o : CtrOutput} (ho : CtrOutput.Sent P key nonce header [] o) :
    CtrOutput.Sent P key nonce header plain (s.send P o) := by
  have hstep : ∀ consumed o (chunk : Bytes), CtrOutput.Sent P key nonce header consumed o →
      o.running = true → chunk.length ≤ 1024 →
      CtrOutput.Sent P key nonce header (consumed ++ chunk) (o.send P chunk) :=
    fun _ _ chunk hs hr _ => hs.send hr chunk
  have hmem : CtrOutput.Sent P key nonce header s.fileContents
      (forSlices 1024 CtrOutput.running (CtrOutput.send P) s.fileContents o) :=
    CtrOutput.Sent.of_consumes (forSlices_invariant hstep ho)
  have hb := h.bytes
  unfold CleanInput.send
  cases ht : s.tempFile with
  | none =>
    rw [ht, Option.getD_none, List.append_nil] at hb
    rwa [← hb]
  | some bytes =>
    rw [ht, Option.getD_some] at hb
    rw [← hb]
    exact CtrOutput.Sent.of_consumes
      (readUntilEof_invariant hstep (IStream.ofBytes_good bytes) hmem)

/-- `clean` on an input below its own limit sends the plaintext behind a header with the
truncated HMAC. -/
theorem cleanWith_eq (P : Primitives) {keyFile : KeyFile} {key : Entry}
    (hkey : keyFile.getLatest = some key) {plain : Bytes} (hlt : plain.length < 2 ^ 36) :
    ∃ o, CtrOutput.Sent P key.aesKey ((P.hmacSha1 key.hmacKey plain).toBytes.take nonceLen)
      (fileMagic ++ (P.hmacSha1 key.hmacKey plain).toBytes.take nonceLen) plain o ∧
      cleanWith P keyFile (IStream.ofBytes plain) = o.finish 0 [] := by
  have hs := (CleanInput.read_spec key.hmacKey plain).1 hlt
  have hsize : ¬ maxCryptBytes ≤ (CleanInput.read key.hmacKey (IStream.ofBytes plain)).fileSize := by
    rw [UInt64.not_le, lt_max, hs.size]
    exact hlt
  have hdigest : (CleanInput.read key.hmacKey (IStream.ofBytes plain)).hmac.get P =
      (P.hmacSha1 key.hmacKey plain).toBytes := by rw [hs.hmac]; rfl
  refine ⟨_, hs.sent (CtrOutput.sent_new key.aesKey ?_ _), ?_⟩
  · rw [Buffer.length_toBytes]
    decide
  · simp only [cleanWith, hkey, if_neg hsize, hdigest]
    rfl

theorem cleanWith_of_lt (P : Primitives) {keyFile : KeyFile} {key : Entry}
    (hkey : keyFile.getLatest = some key) {plain : Bytes} (hlt : plain.length < 2 ^ 32) :
    (cleanWith P keyFile (IStream.ofBytes plain)).ending = .ok 0 ∧
      (cleanWith P keyFile (IStream.ofBytes plain)).cout.written = encryptedBlob P key plain := by
  obtain ⟨o, hsent, heq⟩ := cleanWith_eq P hkey (show plain.length < 2 ^ 36 by omega)
  rcases hsent with ⟨hnone, -, -, hcout⟩ | ⟨-, hge, -⟩
  · rw [heq]
    exact ⟨by simp [CtrOutput.finish, hnone], by simp [CtrOutput.finish, hcout, encryptedBlob]⟩
  · omega

/-- Primitives for running the filters: the identity as block cipher, zero as HMAC. -/
def plainPrimitives : Primitives := ⟨fun _ block => block, fun _ _ => Buffer.zero⟩

/-- A key file as `init` makes it, with fixed keys. -/
def singleKeyFile : KeyFile := KeyFile.empty.add Entry.zero

/-- What `clean` writes, byte by byte: the magic, the first bytes `nonce` of the HMAC, and
byte `i` of the plaintext with byte `i % 16` of the encrypted counter block `i / 16`. The
reads and the temporary file leave no trace in it. -/
theorem clean_output (P : Primitives) (keyFile : KeyFile) (key : Entry)
    (hkey : keyFile.getLatest = some key) (plain : Bytes) (hlt : plain.length < 2 ^ 32) :
    let nonce := (P.hmacSha1 key.hmacKey plain).toBytes.take 12
    let block (i : Nat) : Buffer blockLen := Buffer.ofBytes (nonce ++ storeBe32 (UInt32.ofNat i))
    (cleanWith P keyFile (IStream.ofBytes plain)).ending = .ok 0 ∧
      (cleanWith P keyFile (IStream.ofBytes plain)).cout.written =
        (0 :: str "GITCRYPT" ++ [0]) ++ nonce ++
          plain.mapIdx fun i b => b ^^^ P.aes key.aesKey (block (i / 16)) (Fin.ofNat 16 i) := by
  intro nonce block
  obtain ⟨hending, hwritten⟩ := cleanWith_of_lt P hkey hlt
  refine ⟨hending, ?_⟩
  rw [hwritten, encryptedBlob, ctrXor, Keystream.mask_eq_mapIdx]
  congr 1
  apply congrArg (List.mapIdx · plain)
  funext i b
  rw [Nat.zero_add]
  rfl

/-- One byte more than the part in memory holds. -/
theorem clean_output_spilled :
    (cleanWith plainPrimitives singleKeyFile (IStream.ofBytes (List.replicate 8388609 7))).ending =
      .ok 0 := by
  refine (clean_output plainPrimitives singleKeyFile Entry.zero (by decide) _ ?_).1
  rw [List.length_replicate]
  decide

theorem cleanWith_of_mid (P : Primitives) {keyFile : KeyFile} {key : Entry}
    (hkey : keyFile.getLatest = some key) {plain : Bytes} (hge : 2 ^ 32 ≤ plain.length)
    (hlt : plain.length < 2 ^ 36) :
    (cleanWith P keyFile (IStream.ofBytes plain)).ending = .error tooMuchData := by
  obtain ⟨o, hsent, heq⟩ := cleanWith_eq P hkey hlt
  rcases hsent with ⟨-, hlt', -, -⟩ | ⟨hthrown, -, -⟩
  · omega
  · simp [heq, CtrOutput.finish, hthrown]

theorem cleanWith_of_ge (P : Primitives) {keyFile : KeyFile} {key : Entry}
    (hkey : keyFile.getLatest = some key) {plain : Bytes} (hge : 2 ^ 36 ≤ plain.length) :
    cleanWith P keyFile (IStream.ofBytes plain) =
      ⟨.ok 1, {}, ["git-crypt: error: file too long to encrypt securely"], []⟩ := by
  have hs := (CleanInput.read_spec key.hmacKey plain).2 hge
  simp only [cleanWith, hkey, if_pos hs]

/-- `clean` succeeds on the inputs below 2^32 bytes only. -/
theorem cleanWith_ok {P : Primitives} {keyFile : KeyFile} {plain : Bytes}
    (h : (cleanWith P keyFile (IStream.ofBytes plain)).ending = .ok 0) :
    ∃ key, keyFile.getLatest = some key ∧ plain.length < 2 ^ 32 := by
  cases hkey : keyFile.getLatest with
  | none => simp [cleanWith, hkey] at h
  | some key =>
    refine ⟨key, rfl, not_le.mp fun hge => ?_⟩
    by_cases hlt : plain.length < 2 ^ 36
    · rw [cleanWith_of_mid P hkey hge hlt] at h
      cases h
    · rw [cleanWith_of_ge P hkey (not_lt.mp hlt)] at h
      cases h

end GitCrypt
