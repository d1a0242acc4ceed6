import GitCrypt.Filter

/-! The limits on the data one key may encrypt: no counter block is used twice, and the
byte counter gives up long before the size `clean` allows. -/
namespace GitCrypt
open Iostream

/-- One file to encrypt: its nonce and the successive arguments of `process`. -/
structure CtrFile where
  nonce : Buffer nonceLen
  calls : List Bytes

/-- The blocks given to AES for a file, up to and including the first call that throws. -/
def CtrFile.fed (P : Primitives) (key : Buffer aesKeyLen) (f : CtrFile) : List (Buffer blockLen) :=
  ((AesCtrEncryptor.new key f.nonce.toBytes).processCalls P f.calls).ecb.fed

theorem CtrFile.fed_getElem? {P : Primitives} {key : Buffer aesKeyLen} {f : CtrFile} {i : Nat}
    {block : Buffer blockLen} (h : (f.fed P key)[i]? = some block) :
    i < 2 ^ 32 ∧ block = counterBlock f.nonce.toBytes i := by
  have hlen : f.nonce.toBytes.length = nonceLen := f.nonce.length_toBytes
  have hnew := AesCtrEncryptor.at_new (P := P) key hlen.ge
  rw [List.take_of_length_le hlen.le] at hnew
  obtain ⟨n, hat⟩ := AesCtrEncryptor.processCalls_at hnew (by omega) f.calls
  exact hat.fed_getElem? h

theorem CtrFile.fed_nodup (P : Primitives) (key : Buffer aesKeyLen) (f : CtrFile) :
    (f.fed P key).Nodup := by
  rw [List.nodup_iff_getElem?_ne_getElem?]
  intro i j hij hj heq
  obtain ⟨hi', hbi⟩ := fed_getElem? (heq.trans (List.getElem?_eq_getElem hj))
  obtain ⟨hj', hbj⟩ := fed_getElem? (List.getElem?_eq_getElem hj)
  have hlen : f.nonce.toBytes.length = nonceLen := f.nonce.length_toBytes
  have := (counterBlock_inj hlen hlen hi' hj' (hbi.symm.trans hbj)).2
  omega

/-- The blocks `clean` gives to AES are counter blocks under the truncated HMAC. -/
theorem cleanWith_fed_getElem? {P : Primitives} {keyFile : KeyFile} {key : Entry}
    (hkey : keyFile.getLatest = some key) {plain : Bytes} {i : Nat} {block : Buffer blockLen}
    (h : (cleanWith P keyFile (IStream.ofBytes plain)).fed[i]? = some block) :
    i < 2 ^ 32 ∧
      block = counterBlock ((P.hmacSha1 key.hmacKey plain).toBytes.take nonceLen) i := by
  by_cases hlt : plain.length < 2 ^ 36
  · obtain ⟨o, hsent, heq⟩ := cleanWith_eq P hkey hlt
    rw [heq] at h
    rcases hsent with ⟨-, -, hat, -⟩ | ⟨-, -, hat⟩ <;> exact hat.fed_getElem? h
  · rw [cleanWith_of_ge P hkey (not_lt.mp hlt)] at h
    simp at h

/-- Equal blocks given to AES under one key have one index and come from files with one
nonce; within a file all blocks differ. For files written by `clean` the nonce is the
truncated HMAC. -/
theorem no_keystream_reuse (P : Primitives) (key : Buffer aesKeyLen) :
    (∀ files : List CtrFile, ∀ f ∈ files, ∀ g ∈ files, ∀ (i j : Nat) (block : Buffer blockLen),
      (f.fed P key)[i]? = some block → (g.fed P key)[j]? = some block → i = j ∧ f.nonce = g.nonce) ∧
    (∀ f : CtrFile, (f.fed P key).Nodup) ∧
    (∀ (keyFile : KeyFile) (entry : Entry), keyFile.getLatest = some entry →
      ∀ (plain plain' : Bytes) (i j : Nat) (block : Buffer blockLen),
        (cleanWith P keyFile (IStream.ofBytes plain)).fed[i]? = some block →
        (cleanWith P keyFile (IStream.ofBytes plain')).fed[j]? = some block →
        i = j ∧ (P.hmacSha1 entry.hmacKey plain).toBytes.take nonceLen =
          (P.hmacSha1 entry.hmacKey plain').toBytes.take nonceLen) := by
  refine ⟨?_, CtrFile.fed_nodup P key, ?_⟩
  · intro files f _ g _ i j block hf hg
    obtain ⟨hi, hbi⟩ := CtrFile.fed_getElem? hf
    obtain ⟨hj, hbj⟩ := CtrFile.fed_getElem? hg
    obtain ⟨hn, hij⟩ := counterBlock_inj f.nonce.length_toBytes g.nonce.length_toBytes hi hj
      (hbi.symm.trans hbj)
    exact ⟨hij, Buffer.toBytes_injective hn⟩
  · intro keyFile entry hkey plain plain' i j block h h'
    obtain ⟨hi, hbi⟩ := cleanWith_fed_getElem? hkey h
    obtain ⟨hj, hbj⟩ := cleanWith_fed_getElem? hkey h'
    obtain ⟨hn, hij⟩ := counterBlock_inj (length_nonce P entry plain) (length_nonce P entry plain')
      hi hj (hbi.symm.trans hbj)
    exact ⟨hij, hn⟩

/-- A plaintext is encrypted whole below the size `clean` allows, and refused from there
on with nothing written. -/
structure SizeLimitsAgree (P : Primitives) (keyFile : KeyFile) (plain : Bytes) : Prop where
  below : plain.length < maxCryptBytes.toNat →
    (cleanWith P keyFile (IStream.ofBytes plain)).ending = .ok 0 ∧
      (cleanWith P keyFile (IStream.ofBytes plain)).cout.written.length = 22 + plain.length
  above : maxCryptBytes.toNat ≤ plain.length →
    (cleanWith P keyFile (IStream.ofBytes plain)).ending = .ok 1 ∧
      (cleanWith P keyFile (IStream.ofBytes plain)).cout.written = []

theorem toNat_maxCryptBytes : maxCryptBytes.toNat = 2 ^ 36 := by decide

theorem getLatest_of_not_isEmpty {keyFile : KeyFile} (h : keyFile.isEmpty = false) :
    ∃ key, keyFile.getLatest = some key := by
  cases hkey : keyFile.getLatest with
  | some key => exact ⟨key, rfl⟩
  | none =>
    rw [KeyFile.getLatest_eq_none] at hkey
    have hempty : keyFile.entries = .empty := DescMap.ext hkey
    rw [KeyFile.isEmpty, hempty] at h
    cases h

/-- From 2^32 bytes on the cipher throws, while `clean` goes on accepting sizes. -/
theorem not_sizeLimitsAgree {P : Primitives} {keyFile : KeyFile} (h : keyFile.isEmpty = false)
    {plain : Bytes} (hge : 2 ^ 32 ≤ plain.length) (hlt : plain.length < 2 ^ 36) :
    ¬ SizeLimitsAgree P keyFile plain := by
  intro ha
  obtain ⟨key, hkey⟩ := getLatest_of_not_isEmpty h
  have := (ha.below (by rwa [toNat_maxCryptBytes])).1
  rw [cleanWith_of_mid P hkey hge hlt] at this
  cases this

/-- The two limits agree on a plaintext exactly when its size is below 2^32 bytes or
beyond both of them. -/
theorem sizeLimitsAgree_iff (P : Primitives) (keyFile : KeyFile) (h : keyFile.isEmpty = false)
    (plain : Bytes) :
    SizeLimitsAgree P keyFile plain ↔ plain.length < 2 ^ 32 ∨ 2 ^ 36 ≤ plain.length := by
  obtain ⟨key, hkey⟩ := getLatest_of_not_isEmpty h
  constructor
  · intro ha
    by_contra hc
    obtain ⟨hge, hlt⟩ := not_or.mp hc
    exact not_sizeLimitsAgree h (not_lt.mp hge) (not_le.mp hlt) ha
  · intro hsize
    constructor
    · intro hlt
      rw [toNat_maxCryptBytes] at hlt
      obtain ⟨hending, hwritten⟩ :=
        cleanWith_of_lt P hkey (hsize.resolve_right (not_le.mpr hlt))
      exact ⟨hending, by rw [hwritten, length_encryptedBlob]⟩
    · intro hge
      rw [toNat_maxCryptBytes] at hge
      rw [cleanWith_of_ge P hkey hge]
      exact ⟨rfl, rfl⟩

theorem sizeLimitsAgree_hello : SizeLimitsAgree plainPrimitives singleKeyFile (str "hello") :=
  (sizeLimitsAgree_iff plainPrimitives singleKeyFile (by decide) (str "hello")).mpr (Or.inl (by decide +kernel))

/-- Four GiB of zeroes. -/
theorem sizeLimits_disagree_at_four_gib :
    singleKeyFile.isEmpty = false ∧
      ¬ SizeLimitsAgree plainPrimitives singleKeyFile (List.replicate (2 ^ 32) 0) := by
  refine ⟨by decide, not_sizeLimitsAgree (by decide) ?_ ?_⟩
  · rw [List.length_replicate]
  · rw [List.length_replicate]
    decide

end GitCrypt
