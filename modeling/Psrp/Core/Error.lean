import Psrp.Lib.Text

/-!
# Errors

The error type of the crate, and the escaping of server text in it.

A message can quote what the server wrote. `escapeRemoteText` cuts it at a
number of characters and escapes those that could rewrite a terminal or a log
line; `clixmlError` is the one constructor of CLIXML errors, so everything
that quotes a document goes through it.

## Main definitions

* `PsrpError`: The errors.
* `rewritesOutput`: The characters that must not be printed raw.
* `escapeRemoteText`: Server text made safe to quote.
* `clixmlError`: A CLIXML error.
-/

namespace Psrp

/-- The errors of the WinRM client that the crate tells apart. -/
inductive WinrmError where
  | timeout (seconds : Nat)
  | fault (code reason : String)
  | other (detail : String)
  deriving DecidableEq, Repr

/-- Errors raised by the crate. -/
inductive PsrpError where
  | winrm (e : WinrmError)
  | protocol (msg : String)
  | clixml (msg : String)
  | fragment (msg : String)
  | badState (expected actual : String)
  | stopped
  | pipelineFailed (msg : String)
  | cancelled
  deriving DecidableEq, Repr

/-- The `Display` text of an error. -/
def PsrpError.message : PsrpError → String
  | .winrm (.timeout seconds) => s!"operation timed out after {seconds}s"
  | .winrm (.fault code reason) => s!"SOAP fault {code}: {reason}"
  | .winrm (.other detail) => detail
  | .protocol msg => s!"PSRP protocol: {msg}"
  | .clixml msg => s!"CLIXML: {msg}"
  | .fragment msg => s!"fragment reassembly: {msg}"
  | .badState expected actual => s!"runspace pool not in state {expected}, got {actual}"
  | .stopped => "pipeline stopped"
  | .pipelineFailed msg => s!"pipeline failed: {msg}"
  | .cancelled => "operation cancelled"

/-- How much of a message the server wrote an error message quotes, in
    characters. -/
def MAX_SERVER_MESSAGE_CHARS : Nat := 1024

/-- Whether a character can move the cursor, ring, reorder or hide text once
    printed. -/
def rewritesOutput (c : Char) : Bool :=
  let n := c.toNat
  n < 0x20 || (0x7F ≤ n && n ≤ 0x9F)
    || n == 0xAD
    || n == 0x61C
    || n == 0x180E
    || (0x200B ≤ n && n ≤ 0x200F)
    || (0x2028 ≤ n && n ≤ 0x202E)
    || (0x2060 ≤ n && n ≤ 0x206F)
    || n == 0xFEFF
    || (0xFFF9 ≤ n && n ≤ 0xFFFB)
    || (0xE0000 ≤ n && n ≤ 0xE007F)

/-- `char::escape_debug` on the characters of `rewritesOutput`, none of which
    is printable: the short escapes of four controls, the code point of the
    others. -/
def escapeDebug (c : Char) : Text :=
  if c = Char.ofNat 0 then ['\\', '0']
  else if c = '\t' then ['\\', 't']
  else if c = '\r' then ['\\', 'r']
  else if c = '\n' then ['\\', 'n']
  else ['\\', 'u', '{'] ++ Nat.toDigits 16 c.toNat ++ ['}']

/-- The first `maxChars` characters of a text, with those that could rewrite
    a terminal escaped, and an ellipsis when some were left out. -/
def escapeRemoteText (s : Text) (maxChars : Nat) : Text :=
  ((s.take maxChars).flatMap fun c => if rewritesOutput c then escapeDebug c else [c])
    ++ if maxChars < s.length then ['…'] else []

/-- A CLIXML error. Its text can quote the document, so it is escaped and
    bounded here, once for every place that raises one. -/
def clixmlError (msg : String) : PsrpError :=
  .clixml (String.ofList (escapeRemoteText msg.toList MAX_SERVER_MESSAGE_CHARS))

end Psrp
