import Psrp.Core.Base64
import Psrp.Core.Error
import Psrp.Lib.Bytes

/-!
# The Session Key

The key exchange of a pool and the encryption of a `SecureString`.

The two ciphers are other crates. RSA enters as what a key pair unwraps, AES
as a function on blocks of sixteen bytes for each key; what is around them,
the blobs of the two messages and the chaining of the blocks, is the
program's own.

## Main definitions

* `ClientSessionKey`: The key pair of one exchange.
* `ClientSessionKey.publicBlobBase64`: What the `PublicKey` message carries.
* `ClientSessionKey.decryptSessionKey`: What the reply to it carries.
* `SessionKey`: A negotiated key.
* `SessionKey.encryptSecureString`: A text under a key.
* `SessionKey.decryptSecureString`: The text of a ciphertext.
-/

namespace Psrp

/-- Header of the blob that carries the encrypted session key. -/
def SESSION_KEY_BLOB_HEADER : Bytes :=
  [0x01, 0x02, 0x00, 0x00, 0x10, 0x66, 0x00, 0x00, 0x00, 0xA4, 0x00, 0x00]

/-- The only error text for a failed unwrap or a key of the wrong size. -/
def SESSION_KEY_UNWRAP_FAILED : String := "session key unwrap failed"

/-- Size of the RSA block that follows the header. -/
def SESSION_KEY_BLOCK_LEN : Nat := 256

/-- An RSA key pair: the public key, least significant byte first, and what
    the private key makes of a block. -/
structure ClientSessionKey where
  exponent : Bytes
  modulus : Bytes
  unwrap : Bytes → Option Bytes

/-- A 256-bit key. -/
structure SessionKey where
  key : Vector UInt8 32
  deriving DecidableEq

/-- A block cipher on blocks of sixteen bytes. -/
abbrev BlockCipher := SessionKey → Vector UInt8 16 → Vector UInt8 16

/-- The first `n` bytes, filled up with zeros. -/
def resize (n : Nat) (bs : Bytes) : Bytes := bs.take n ++ List.replicate (n - bs.length) 0

namespace ClientSessionKey

/-- The Windows form of the public key. -/
def publicBlob (k : ClientSessionKey) : Bytes :=
  [0x06, 0x02, 0x00, 0x00] ++ leBytes 4 0xA400 ++ Text.toUtf8 "RSA1".toList ++ leBytes 4 2048
    ++ resize 4 k.exponent ++ resize 256 k.modulus

def publicBlobBase64 (k : ClientSessionKey) : Text := base64Encode k.publicBlob

/-- Unwrap the reply of the server. Every failure after the unwrapping reads
    the same. -/
def decryptSessionKey (k : ClientSessionKey) (blob : Bytes) :
    Except PsrpError (Vector UInt8 32) := do
  if ¬ SESSION_KEY_BLOB_HEADER.isPrefixOf blob then
    throw (.protocol "session key: bad SIMPLEBLOB header")
  let ciphertext := blob.drop SESSION_KEY_BLOB_HEADER.length
  if ciphertext.length ≠ SESSION_KEY_BLOCK_LEN then
    throw (.protocol
      s!"session key: expected {SESSION_KEY_BLOCK_LEN} encrypted bytes, got {ciphertext.length}")
  match k.unwrap ciphertext.reverse with
  | none => throw (.protocol SESSION_KEY_UNWRAP_FAILED)
  | some decrypted =>
    if h : decrypted.length = 32 then return ⟨decrypted.toArray, by simpa using h⟩
    else throw (.protocol SESSION_KEY_UNWRAP_FAILED)

end ClientSessionKey

/-- The UTF-16 code units of a character. -/
def utf16Units (c : Char) : List Nat :=
  if c.toNat < 0x10000 then [c.toNat]
  else [0xD800 + (c.toNat - 0x10000) / 0x400, 0xDC00 + (c.toNat - 0x10000) % 0x400]

/-- The little-endian UTF-16 form of a text. -/
def toUtf16Le (s : Text) : Bytes := s.flatMap fun c => (utf16Units c).flatMap (leBytes 2)

/-- The code units of a byte string, least significant byte first. -/
def leUnits : Bytes → List Nat
  | low :: high :: bs => ofLe [low, high] :: leUnits bs
  | _ => []

/-- `String::from_utf16`: a surrogate must be the first of a pair or belong to
    one. -/
def fromUtf16 : List Nat → Option Text
  | [] => some []
  | u :: us =>
    if u < 0xD800 ∨ 0xDFFF < u then (fromUtf16 us).map (Char.ofNat u :: ·)
    else if 0xDC00 ≤ u then none
    else match us with
      | [] => none
      | l :: rest =>
        if 0xDC00 ≤ l ∧ l ≤ 0xDFFF then
          (fromUtf16 rest).map
            (Char.ofNat (0x10000 + 0x400 * (u - 0xD800) + (l - 0xDC00)) :: ·)
        else none

/-- Fill up to whole blocks, with the number of bytes added as the filling. -/
def pkcs7Pad (bs : Bytes) : Bytes :=
  let pad := 16 - bs.length % 16
  bs ++ List.replicate pad (UInt8.ofNat pad)

namespace SessionKey

/-- Encrypt block after block, each mixed with the one before it. -/
def cbcEncrypt (cipher : Vector UInt8 16 → Vector UInt8 16) :
    Nat → Vector UInt8 16 → Bytes → Bytes
  | 0, _, _ => []
  | blocks + 1, prev, bs =>
    let block := cipher (Vector.ofFn fun i => bs.getD i 0 ^^^ prev[i])
    block.toList ++ cbcEncrypt cipher blocks block (bs.drop 16)

/-- The ciphertext of a text: no initial vector in front, since it is always
    zero. -/
def encryptSecureString (cipher : BlockCipher) (k : SessionKey) (plaintext : Text) : Bytes :=
  let padded := pkcs7Pad (toUtf16Le plaintext)
  cbcEncrypt (cipher k) (padded.length / 16) (Vector.replicate 16 0) padded

/-- Decrypt block after block, each mixed with the ciphertext before it. -/
def cbcDecrypt (decipher : Vector UInt8 16 → Vector UInt8 16) :
    Nat → Vector UInt8 16 → Bytes → Bytes
  | 0, _, _ => []
  | blocks + 1, prev, bs =>
    let chunk : Vector UInt8 16 := Vector.ofFn fun i => bs.getD i 0
    let block := decipher chunk
    (Vector.ofFn fun i : Fin 16 => block[i] ^^^ prev[i]).toList
      ++ cbcDecrypt decipher blocks chunk (bs.drop 16)

/-- Take the filling off, which must be as many bytes as each of them says. -/
def stripPadding (pt : Bytes) : Except PsrpError Bytes :=
  let badPadding : PsrpError := .protocol "invalid PKCS#7 padding"
  match pt.getLast? with
  | none => .error (.protocol "empty plaintext")
  | some padByte =>
    let pad := padByte.toNat
    if padByte = 0 ∨ 16 < pad then .error badPadding
    else if pt.length < pad then .error badPadding
    else
      let bodyLen := pt.length - pad
      if (pt.drop bodyLen).any (fun b => b != padByte) then .error badPadding
      else .ok (pt.take bodyLen)

/-- The text of a ciphertext. -/
def decryptSecureString (decipher : BlockCipher) (k : SessionKey) (payload : Bytes) :
    Except PsrpError Text := do
  if payload.length < 16 ∨ payload.length % 16 ≠ 0 then
    throw (.protocol "secure string payload malformed")
  let pt := cbcDecrypt (decipher k) (payload.length / 16) (Vector.replicate 16 0) payload
  let body ← stripPadding pt
  if body.length % 2 ≠ 0 then
    throw (.protocol "secure string plaintext not UTF-16 aligned")
  match fromUtf16 (leUnits body) with
  | some s => return s
  | none => throw (.protocol "secure string UTF-16: invalid utf-16: lone surrogate found")

end SessionKey

end Psrp
