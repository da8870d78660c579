import Psrp.Core.Glob
import Psrp.Core.HostName

/-!
# The `known_hosts` File

Whether a `known_hosts` file vouches for a host key. The `ssh-key` crate, which
reads the lines of the file and hashes the names in it, is a parameter: it
reads every line by itself and has no entry for a blank one.

## Main definitions

* `lines`, `splitAsciiWhitespace`: Lines and fields as `str` has them.
* `Entry`, `SshPlatform`: What the `ssh-key` crate makes of a line.
* `hostMatchesPatterns`, `hostMatchesHashed`, `hostMatchesEntry`: Whom an entry is about.
* `normalizeKnownHosts`, `knownHostsVerdict`: What the file says about a key.
* `SshPlatform.basic`: A concrete platform.
-/

namespace Psrp

/-- A line without the `\r` of its `\r\n`. -/
def stripCarriageReturn (line : Text) : Text :=
  if line.getLast? = some '\r' then line.dropLast else line

/-- `str::lines`: what comes before each `\n` or `\r\n`, and what comes after
    the last one unless that is nothing. -/
def lines (s : Text) : List Text :=
  let pieces := List.splitOn '\n' s
  let last := pieces.getLast?.getD []
  pieces.dropLast.map stripCarriageReturn ++ if last = [] then [] else [last]

/-- `u8::is_ascii_whitespace`. -/
def isAsciiWhitespace (c : Char) : Bool :=
  c = ' ' || c = '\t' || c = '\n' || c = '\x0C' || c = '\r'

/-- `str::split_ascii_whitespace`. -/
def splitAsciiWhitespace (s : Text) : List Text :=
  (s.splitOnP isAsciiWhitespace).filter (!·.isEmpty)

/-- `known_hosts::Marker`. -/
inductive Marker where
  | certAuthority
  | revoked
  deriving DecidableEq, Repr

/-- `known_hosts::HostPatterns`. -/
inductive HostPatterns where
  | patterns (patterns : List Text)
  | hashedName (salt : Bytes) (hash : Vector UInt8 20)
  deriving DecidableEq, Repr

/-- `known_hosts::Entry`, with the key data of its public key. -/
structure Entry (κ : Type) where
  marker : Option Marker
  hostPatterns : HostPatterns
  keyData : κ
  deriving DecidableEq, Repr

/-- The libraries that the lookup rests on, for one kind of key data. -/
structure SshPlatform (κ : Type) extends IpPlatform where
  /-- What `KnownHosts` has for one line: nothing for a blank or a comment. -/
  parseLine : Text → Option (Except String (Entry κ))
  /-- The SHA-1 HMAC of a salt and a message; none if the salt is no key. -/
  hmacSha1 : Bytes → Bytes → Option Bytes

/-- What is assumed of the libraries. -/
structure SshPlatform.Lawful {κ : Type} (p : SshPlatform κ) : Prop
    extends IpPlatform.Lawful p.toIpPlatform where
  parseLine_nil : p.parseLine [] = none

/-- `KnownHosts`: the entries of a file, line by line. -/
def SshPlatform.knownHosts {κ : Type} (p : SshPlatform κ) (contents : Text) :
    List (Except String (Entry κ)) :=
  (lines contents).filterMap p.parseLine

/-- A pattern and whether it is negated. -/
def negation (raw : Text) : Bool × Text :=
  match raw with
  | '!' :: rest => (true, rest)
  | _ => (false, raw)

/-- The loop of `host_matches_patterns`. -/
def matchPatterns (lookup : Text) : List Text → Bool → Bool
  | [], positive => positive
  | raw :: rest, positive =>
    let (negate, pattern) := negation raw
    if !globMatch pattern lookup then matchPatterns lookup rest positive
    else if negate then false
    else matchPatterns lookup rest true

/-- `host_matches_patterns`. -/
def hostMatchesPatterns (patterns : List Text) (lookup : Text) : Bool :=
  matchPatterns lookup patterns false

/-- `constant_time_eq`. -/
def constantTimeEq (a b : Bytes) : Bool :=
  if a.length ≠ b.length then false
  else (a.zip b).foldl (fun diff (x, y) => diff ||| (x ^^^ y)) 0 == 0

/-- The answers of `known_hosts_verdict`. -/
inductive KnownHostsVerdict where
  /-- An unmarked entry for the host lists the key. -/
  | trusted
  /-- An `@revoked` entry for the host lists the key. -/
  | revoked
  /-- No entry vouches for the key. -/
  | notTrusted
  deriving DecidableEq, Repr

/-- A line with single spaces between its fields. -/
def normalizeLine (line : Text) : Text := List.intercalate [' '] (splitAsciiWhitespace line)

/-- `normalize_known_hosts`. -/
def normalizeKnownHosts (contents : Text) : Text :=
  List.intercalate ['\n'] ((lines contents).map normalizeLine)

namespace SshPlatform

variable {κ : Type} (p : SshPlatform κ)

/-- `host_matches_hashed`. -/
def hostMatchesHashed (salt : Bytes) (expected : Vector UInt8 20) (host : Text) : Bool :=
  -- A line whose salt is not one SHA-1 digest long names nobody.
  if salt.length ≠ expected.toList.length then false
  else match p.hmacSha1 salt host.toUtf8 with
    | none => false
    | some computed => constantTimeEq computed expected.toList

/-- `host_matches_entry`. -/
def hostMatchesEntry (entry : Entry κ) (lookup : Text) : Bool :=
  match entry.hostPatterns with
  | .patterns patterns => hostMatchesPatterns patterns lookup
  | .hashedName salt hash => p.hostMatchesHashed salt hash lookup

variable [DecidableEq κ]

/-- The loop of `known_hosts_verdict`. -/
def judge (lookup : Text) (key : κ) : List (Except String (Entry κ)) → Bool → KnownHostsVerdict
  | [], trusted => if trusted then .trusted else .notTrusted
  -- A malformed line is skipped silently like ssh(1) does.
  | .error _ :: rest, trusted => judge lookup key rest trusted
  | .ok entry :: rest, trusted =>
    if !p.hostMatchesEntry entry lookup then judge lookup key rest trusted
    else
      let sameKey := decide (entry.keyData = key)
      match entry.marker with
      | some .revoked => if sameKey then .revoked else judge lookup key rest trusted
      | some .certAuthority => judge lookup key rest trusted
      | none => judge lookup key rest (trusted || sameKey)

/-- `known_hosts_verdict`: a revocation wins over any entry that trusts the key. -/
def knownHostsVerdict (contents host : Text) (port : UInt16) (key : κ) : KnownHostsVerdict :=
  p.judge (knownHostsLookupName p.toIpPlatform host port) key
    (p.knownHosts (normalizeKnownHosts contents)) false

end SshPlatform

/-- `str::split_once`. -/
def splitOnce (sep : Char) (s : Text) : Option (Text × Text) :=
  match s.dropWhile (· ≠ sep) with
  | [] => none
  | _ :: rest => some (s.takeWhile (· ≠ sep), rest)

/-- A line with neither marker nor comment: the patterns of an entry and its
    key, as the name of an algorithm and a Base64 text. -/
def readEntry (marker : Option Marker) (line : Text) : Except String (Entry (Text × Text)) :=
  match splitOnce ' ' line with
  | none => .error "format encoding error"
  | some (hosts, key) =>
    match List.splitOn ' ' key with
    | algorithm :: encoded :: _ =>
      .ok { marker, hostPatterns := .patterns (List.splitOn ',' hosts)
            keyData := (algorithm, encoded) }
    | _ => .error "format encoding error"

/-- A line of a file without hashed names. -/
def readLine (line : Text) : Option (Except String (Entry (Text × Text))) :=
  match (line.takeWhile (· ≠ '#')).rdropWhile Text.isWhitespace with
  | [] => none
  | '@' :: rest =>
    match splitOnce ' ' rest with
    | some (marker, rest) =>
      if marker = "revoked".toList then some (readEntry (some .revoked) rest)
      else if marker = "cert-authority".toList then some (readEntry (some .certAuthority) rest)
      else some (.error "format encoding error")
    | none => some (.error "format encoding error")
  | line => some (readEntry none line)

/-- A concrete platform, for files without hashed names. -/
def SshPlatform.basic : SshPlatform (Text × Text) where
  toIpPlatform := .basic
  parseLine := readLine
  hmacSha1 _ _ := none

end Psrp
