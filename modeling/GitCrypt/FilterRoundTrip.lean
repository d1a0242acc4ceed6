import GitCrypt.Filter

/-! `clean` and `decrypt_file_to_stdout` undo each other: on every plaintext `clean` can
encrypt, and on every blob the decryption accepts. -/
namespace GitCrypt
open Iostream

namespace DecryptState
variable {P : Primitives} {key : Entry} {nonce : Bytes}

/-- Decryption has consumed some of the body: the output is its decryption, and the HMAC is
over that. -/
structure Received (P : Primitives) (key : Entry) (nonce consumed : Bytes) (d : DecryptState) :
    Prop where
  sent : CtrOutput.Sent P key.aesKey nonce [] consumed d.toCtrOutput
  hmac : d.thrown = none → d.hmac = ⟨key.hmacKey, ctrXor P key.aesKey nonce 0 consumed⟩

private theorem toCtrOutput_receive (d : DecryptState) (buffer : Bytes) :
    (d.receive P buffer).toCtrOutput = d.toCtrOutput.send P buffer := by
  unfold receive CtrOutput.send
  split <;> simp_all

theorem Received.receive {consumed : Bytes} {d : DecryptState} (h : d.Received P key nonce consumed)
    (hr : d.running = true) (buffer : Bytes) :
    (d.receive P buffer).Received P key nonce (consumed ++ buffer) := by
  have hsent := h.sent.send hr buffer
  rw [← toCtrOutput_receive] at hsent
  refine ⟨hsent, fun hnone => ?_⟩
  rcases hsent with ⟨-, hlen, -, -⟩ | ⟨hthrown, -⟩
  · rw [CtrOutput.running_iff] at hr
    rcases h.sent with ⟨-, -, hat, -⟩ | ⟨hthrown, -⟩
    · rw [List.length_append] at hlen
      have hres := (AesCtrEncryptor.process_of_lt hat hlen).1
      generalize hp : d.aes.process P buffer = r at hres
      obtain ⟨aes, res⟩ := r
      simp only at hres
      subst hres
      simp [DecryptState.receive, hp, HmacSha1State.add, h.hmac hr, ctrXor_append]
    · rw [hr] at hthrown
      cases hthrown
  · rw [hnone] at hthrown
    cases hthrown

/-- A loop that receives all of `bytes`, or stops at the limit. -/
theorem Received.of_consumes {bytes : Bytes} {d : DecryptState}
    (h : Consumes (Received P key nonce) (fun d => d.running) [] bytes d) :
    d.Received P key nonce bytes := by
  obtain ⟨part, rest, hsplit, hrec, hend⟩ := h
  have hsent : Consumes (CtrOutput.Sent P key.aesKey nonce []) CtrOutput.running [] bytes
      d.toCtrOutput := ⟨part, rest, hsplit, hrec.sent, hend⟩
  refine ⟨CtrOutput.Sent.of_consumes hsent, fun hnone => ?_⟩
  rcases hend with rfl | hstop
  · rw [hsplit, List.append_nil]
    exact hrec.hmac hnone
  · exact absurd (CtrOutput.running_iff.mpr hnone) (by simpa using hstop)

end DecryptState

/-- The loop of `decrypt_file_to_stdout` over a whole body. -/
private theorem decryptFileToStdout_eq (P : Primitives) {keyFile : KeyFile} {key : Entry}
    (hkey : keyFile.get decryptKeyVersion = some key) {header : Bytes}
    (hlen : header.length = headerLen) (body : Bytes) (g : Nat) :
    ∃ d : DecryptState, d.Received P key (header.drop 10) body ∧
      decryptFileToStdout P keyFile header ⟨body, false, false, g⟩ =
        if leaklessEquals (d.hmac.get P) (header.drop 10) nonceLen then d.finish 0 []
        else d.finish 1 ["git-crypt: error: encrypted file has been tampered with!"] := by
  have hnonce : (header.drop 10).length = nonceLen := by simp [hlen, headerLen, nonceLen]
  have hinit : DecryptState.Received P key (header.drop 10) []
      { aes := .new key.aesKey (header.drop 10), cout := {}, hmac := { key := key.hmacKey } } := by
    have hs := CtrOutput.sent_new (P := P) key.aesKey hnonce.ge []
    rw [List.take_of_length_le hnonce.le] at hs
    exact ⟨hs, fun _ => rfl⟩
  have hstep : ∀ consumed (d : DecryptState) (chunk : Bytes),
      d.Received P key (header.drop 10) consumed → d.running = true → chunk.length ≤ 1024 →
      (d.receive P chunk).Received P key (header.drop 10) (consumed ++ chunk) :=
    fun _ _ chunk hd hr _ => hd.receive hr chunk
  have hgood : (⟨body, false, false, g⟩ : IStream).good = true := rfl
  exact ⟨_, .of_consumes (readWhile_invariant hstep hgood hinit),
    by simp only [decryptFileToStdout, hkey]⟩

/-- On a body below the limit the decryption is written, and accepted exactly when its
truncated HMAC is the nonce. -/
theorem decryptFileToStdout_of_lt (P : Primitives) {keyFile : KeyFile} {key : Entry}
    (hkey : keyFile.get decryptKeyVersion = some key) {header body plain : Bytes}
    (hlen : header.length = headerLen) (hlt : body.length < 2 ^ 32) (g : Nat)
    (hplain : plain = ctrXor P key.aesKey (header.drop 10) 0 body) :
    (decryptFileToStdout P keyFile header ⟨body, false, false, g⟩).cout.written = plain ∧
      ((decryptFileToStdout P keyFile header ⟨body, false, false, g⟩).ending = .ok 0 ↔
        (P.hmacSha1 key.hmacKey plain).toBytes.take nonceLen = header.drop 10) := by
  obtain ⟨d, hd, heq⟩ := decryptFileToStdout_eq P hkey hlen body g
  have hnonce : (header.drop 10).length = nonceLen := by simp [hlen, headerLen, nonceLen]
  rcases hd.sent with ⟨hnone, -, -, hcout⟩ | ⟨-, hge, -⟩
  · have hdigest : d.hmac.get P = (P.hmacSha1 key.hmacKey plain).toBytes := by
      rw [hd.hmac hnone, hplain]
      rfl
    have hle : nonceLen ≤ (d.hmac.get P).length := by
      rw [hdigest, Buffer.length_toBytes]
      decide
    have hiff := leaklessEquals_iff hle hnonce.ge
    rw [List.take_of_length_le hnonce.le, hdigest] at hiff
    rw [heq, hdigest]
    split_ifs with h
    · exact ⟨by simp [CtrOutput.finish, hcout, hplain],
        by simpa [CtrOutput.finish, hnone] using hiff.mp h⟩
    · exact ⟨by simp [CtrOutput.finish, hcout, hplain],
        by simpa [CtrOutput.finish, hnone] using fun he => h (hiff.mpr he)⟩
  · omega

/-- A blob with a whole header goes to the decryption. -/
theorem decryptOrCopy_blob (warning : List String) (P : Primitives) (keyFile : KeyFile)
    {blob : Bytes} (hlen : headerLen ≤ blob.length) (hmagic : blob.take 10 = fileMagic) :
    decryptOrCopy warning P keyFile (IStream.ofBytes blob) =
      decryptFileToStdout P keyFile (blob.take headerLen)
        ⟨blob.drop headerLen, false, false, headerLen⟩ := by
  have hread : (IStream.ofBytes blob).read headerLen =
      (blob.take headerLen, ⟨blob.drop headerLen, false, false, headerLen⟩) := by
    rw [IStream.read_of_good rfl, IStream.ofBytes_rest]
    simp [hlen]
  have hm : (blob.take headerLen).take 10 = fileMagic := by
    rw [List.take_take, ← hmagic]
    rfl
  simp only [decryptOrCopy, hread, hm]
  simp

private theorem take_encryptedBlob (P : Primitives) (key : Entry) (plain : Bytes) :
    (encryptedBlob P key plain).take headerLen =
        fileMagic ++ (P.hmacSha1 key.hmacKey plain).toBytes.take nonceLen ∧
      (encryptedBlob P key plain).drop headerLen =
        ctrXor P key.aesKey ((P.hmacSha1 key.hmacKey plain).toBytes.take nonceLen) 0 plain := by
  have hl : (fileMagic ++ (P.hmacSha1 key.hmacKey plain).toBytes.take nonceLen).length =
      headerLen := by
    rw [List.length_append, length_fileMagic, length_nonce]
  exact ⟨List.take_left' hl, List.drop_left' hl⟩

/-- What `clean` wrote is decrypted to the plaintext, with or without the warning text. -/
theorem decryptOrCopy_encryptedBlob (warning : List String) (P : Primitives) {keyFile : KeyFile}
    {key : Entry} (hkey : keyFile.get decryptKeyVersion = some key) {plain : Bytes}
    (hlt : plain.length < 2 ^ 32) :
    (decryptOrCopy warning P keyFile (IStream.ofBytes (encryptedBlob P key plain))).ending = .ok 0 ∧
      (decryptOrCopy warning P keyFile
        (IStream.ofBytes (encryptedBlob P key plain))).cout.written = plain := by
  obtain ⟨htake, hdrop⟩ := take_encryptedBlob P key plain
  have hlen : ((encryptedBlob P key plain).take headerLen).length = headerLen := by
    rw [htake, List.length_append, length_fileMagic, length_nonce]
  have hnonce : ((encryptedBlob P key plain).take headerLen).drop 10 =
      (P.hmacSha1 key.hmacKey plain).toBytes.take nonceLen := by
    rw [htake, List.drop_left' length_fileMagic]
  have hmagic : (encryptedBlob P key plain).take 10 = fileMagic := by
    rw [encryptedBlob, List.append_assoc, List.take_left' length_fileMagic]
  have hge : headerLen ≤ (encryptedBlob P key plain).length := by
    rw [length_encryptedBlob, headerLen, nonceLen]
    omega
  rw [decryptOrCopy_blob warning P keyFile hge hmagic]
  have hbody : ((encryptedBlob P key plain).drop headerLen).length < 2 ^ 32 := by
    rwa [hdrop, length_ctrXor]
  have hplain : plain = ctrXor P key.aesKey (((encryptedBlob P key plain).take headerLen).drop 10) 0
      ((encryptedBlob P key plain).drop headerLen) := by
    rw [hnonce, hdrop, ctrXor_ctrXor]
  obtain ⟨hwritten, hending⟩ := decryptFileToStdout_of_lt P hkey hlen hbody headerLen hplain
  exact ⟨hending.mpr hnonce.symm, hwritten⟩

/-- Where both directions use one entry, whatever `clean` encrypts both decrypting filters
give back. -/
theorem smudge_diff_of_clean (P : Primitives) (keyFile : KeyFile)
    (hkey : keyFile.getLatest = keyFile.get decryptKeyVersion) (plain : Bytes)
    (hclean : (cleanWith P keyFile (IStream.ofBytes plain)).ending = .ok 0) :
    let blob := (cleanWith P keyFile (IStream.ofBytes plain)).cout.written
    (smudgeWith P keyFile (IStream.ofBytes blob)).ending = .ok 0 ∧
      (smudgeWith P keyFile (IStream.ofBytes blob)).cout.written = plain ∧
      (diffWith P keyFile (IStream.ofBytes blob)).ending = .ok 0 ∧
      (diffWith P keyFile (IStream.ofBytes blob)).cout.written = plain := by
  obtain ⟨key, hlatest, hlt⟩ := cleanWith_ok hclean
  have hget : keyFile.get decryptKeyVersion = some key := hkey ▸ hlatest
  have hblob := (cleanWith_of_lt P hlatest hlt).2
  obtain ⟨hs, hs'⟩ := decryptOrCopy_encryptedBlob notEncryptedWarning P hget hlt
  obtain ⟨hd, hd'⟩ := decryptOrCopy_encryptedBlob [] P hget hlt
  intro blob
  rw [show blob = encryptedBlob P key plain from hblob]
  exact ⟨hs, hs', hd, hd'⟩

theorem smudge_diff_of_clean_hello :
    let blob := (cleanWith plainPrimitives singleKeyFile (IStream.ofBytes (str "hello"))).cout.written
    (smudgeWith plainPrimitives singleKeyFile (IStream.ofBytes blob)).ending = .ok 0 ∧
      (smudgeWith plainPrimitives singleKeyFile (IStream.ofBytes blob)).cout.written = str "hello" ∧
      (diffWith plainPrimitives singleKeyFile (IStream.ofBytes blob)).ending = .ok 0 ∧
      (diffWith plainPrimitives singleKeyFile (IStream.ofBytes blob)).cout.written = str "hello" :=
  smudge_diff_of_clean plainPrimitives singleKeyFile (by decide) (str "hello")
    (cleanWith_of_lt plainPrimitives (show singleKeyFile.getLatest = some Entry.zero by decide)
      (by decide)).1

/-- `smudge` takes a blob, with a whole header and a body below 2^32 bytes, for the
encryption of a plaintext. -/
structure Accepts (P : Primitives) (keyFile : KeyFile) (blob plain : Bytes) : Prop where
  header : 22 ≤ blob.length
  magic : blob.take 10 = fileMagic
  body : (blob.drop 22).length < 2 ^ 32
  ending : (smudgeWith P keyFile (IStream.ofBytes blob)).ending = .ok 0
  written : (smudgeWith P keyFile (IStream.ofBytes blob)).cout.written = plain

/-- An accepted blob is the encryption of what it decrypts to. -/
theorem Accepts.eq_encryptedBlob {P : Primitives} {keyFile : KeyFile} {key : Entry}
    (hkey : keyFile.get decryptKeyVersion = some key) {blob plain : Bytes}
    (h : Accepts P keyFile blob plain) :
    blob = encryptedBlob P key plain ∧ plain.length < 2 ^ 32 := by
  obtain ⟨hheader, hmagic, hbody, hending, hwritten⟩ := h
  have hlen : (blob.take headerLen).length = headerLen := by
    rw [List.length_take]
    exact min_eq_left hheader
  rw [smudgeWith, decryptOrCopy_blob _ P keyFile hheader hmagic] at hending hwritten
  have hbody : (blob.drop headerLen).length < 2 ^ 32 := hbody
  obtain ⟨hw, he⟩ := decryptFileToStdout_of_lt P hkey hlen hbody headerLen rfl
  rw [hwritten] at hw
  have hnonce := he.mp hending
  rw [← hw] at hnonce
  refine ⟨?_, by rw [hw, length_ctrXor]; exact hbody⟩
  have hback : ctrXor P key.aesKey ((blob.take headerLen).drop 10) 0 plain = blob.drop headerLen := by
    rw [hw, ctrXor_ctrXor]
  rw [encryptedBlob, hnonce, hback, ← hmagic,
    show blob.take 10 = (blob.take headerLen).take 10 by simp [List.take_take, headerLen],
    List.take_append_drop, List.take_append_drop]

/-- With one entry for both directions, `clean` on what `smudge` wrote gives the blob back.
So no two accepted blobs have one plaintext, and an accepted modification of a blob is the
encryption of another plaintext. -/
theorem clean_of_smudge (P : Primitives) (keyFile : KeyFile) (key : Entry)
    (hlatest : keyFile.getLatest = some key) (hget : keyFile.get decryptKeyVersion = some key) :
    (∀ blob plain, Accepts P keyFile blob plain →
      (cleanWith P keyFile (IStream.ofBytes plain)).ending = .ok 0 ∧
        (cleanWith P keyFile (IStream.ofBytes plain)).cout.written = blob) ∧
    (∀ blob blob' plain plain', Accepts P keyFile blob plain → Accepts P keyFile blob' plain' →
      blob ≠ blob' → plain ≠ plain' ∧
        (cleanWith P keyFile (IStream.ofBytes plain')).ending = .ok 0 ∧
        (cleanWith P keyFile (IStream.ofBytes plain')).cout.written = blob') := by
  have hfirst : ∀ blob plain, Accepts P keyFile blob plain →
      (cleanWith P keyFile (IStream.ofBytes plain)).ending = .ok 0 ∧
        (cleanWith P keyFile (IStream.ofBytes plain)).cout.written = blob := by
    intro blob plain h
    obtain ⟨rfl, hlt⟩ := h.eq_encryptedBlob hget
    exact cleanWith_of_lt P hlatest hlt
  refine ⟨hfirst, fun blob blob' plain plain' h h' hne => ⟨?_, hfirst blob' plain' h'⟩⟩
  rintro rfl
  exact hne ((h.eq_encryptedBlob hget).1.trans (h'.eq_encryptedBlob hget).1.symm)

/-- Any plaintext below the limit has an accepted blob. -/
theorem accepts_encryptedBlob (P : Primitives) {keyFile : KeyFile} {key : Entry}
    (hget : keyFile.get decryptKeyVersion = some key) {plain : Bytes}
    (hlt : plain.length < 2 ^ 32) : Accepts P keyFile (encryptedBlob P key plain) plain := by
  obtain ⟨hending, hwritten⟩ := decryptOrCopy_encryptedBlob notEncryptedWarning P hget hlt
  refine ⟨by simp [length_encryptedBlob], ?_, ?_, hending, hwritten⟩
  · rw [encryptedBlob, List.append_assoc, List.take_left' length_fileMagic]
  · rw [List.length_drop, length_encryptedBlob]
    omega

theorem clean_of_smudge_two_blobs :
    let blob := encryptedBlob plainPrimitives Entry.zero (str "a")
    let blob' := encryptedBlob plainPrimitives Entry.zero (str "b")
    (cleanWith plainPrimitives singleKeyFile (IStream.ofBytes (str "a"))).cout.written = blob ∧
      (cleanWith plainPrimitives singleKeyFile (IStream.ofBytes (str "b"))).cout.written = blob' := by
  intro blob blob'
  have h := clean_of_smudge plainPrimitives singleKeyFile Entry.zero (by decide) (by decide)
  have ha : Accepts plainPrimitives singleKeyFile blob (str "a") :=
    accepts_encryptedBlob plainPrimitives (by decide) (by decide)
  have hb : Accepts plainPrimitives singleKeyFile blob' (str "b") :=
    accepts_encryptedBlob plainPrimitives (by decide) (by decide)
  exact ⟨(h.1 blob _ ha).2, (h.2 blob blob' _ _ ha hb (by decide)).2.2⟩

end GitCrypt
