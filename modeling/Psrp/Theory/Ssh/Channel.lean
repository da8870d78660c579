import Psrp.Lib.Accounts
import Psrp.Theory.Ssh.Connect

/-!
# The Stdout of a Channel

The reads of a connection return the stdout of its channel.

A read may be dropped at any wait, and the session that reads drops many. What
carries the proof is that a read takes a message off the channel and makes up
its mind about it without a wait in between: what it returns, and what is still
held back of the time before the subsystem answered, is always what came
(`Balanced`). An error says why there is no more, with the exit status that was
reported last.

## Main definitions

* `returnedBy`: What some reads returned.
* `statusOf`: The exit status that was reported last.
* `Balanced`: Nothing lost, nothing twice, in order.
* `Conserved`: What holds of a run of reads.

## Theorems

* `accounts_read`: A read notes what it is answered with.
* `channel_stdout`: It holds of every run of reads over every connection.
-/

namespace Psrp

namespace Ssh

open Async

variable {κ : Type} {s t : RusshPipe} {pending out : Bytes} {msg : Option ChannelMsg}

/-- A program on the channel of a connection. -/
abbrev ChannelProg (κ : Type) := Async (SshAnswer κ) PsrpError RusshPipe

/-- What a read returned. -/
def outputOf : Exit PsrpError Bytes → Bytes
  | .ok data => data
  | _ => []

/-- What some reads returned, one after the other. -/
def returnedBy (past : List (Unit × Exit PsrpError Bytes)) : Bytes :=
  past.flatMap fun read => outputOf read.2

/-- The exit status that a message reports. -/
def reportedBy : Option ChannelMsg → Option UInt32
  | some (.exitStatus status) => some status
  | _ => none

/-- The exit status that was reported last. -/
def statusOf (msgs : List (Option ChannelMsg)) : Option UInt32 :=
  (msgs.filterMap reportedBy).getLast?

/-- Whether a channel ends with a message. -/
def endsChannel : Option ChannelMsg → Bool
  | none | some .eof | some .close => true
  | _ => false

section Balance

theorem stdoutOf_snoc (msgs : List (Option ChannelMsg)) (msg : Option ChannelMsg) :
    stdoutOf (msgs ++ [msg]) = stdoutOf msgs ++ stdout msg := by
  rw [stdoutOf, stdoutOf, List.flatMap_append, List.flatMap_singleton]

theorem statusOf_snoc (msgs : List (Option ChannelMsg)) (msg : Option ChannelMsg) :
    statusOf (msgs ++ [msg]) = (reportedBy msg).or (statusOf msgs) := by
  rw [statusOf, statusOf, List.filterMap_append]
  cases hstatus : reportedBy msg with
  | none =>
      rw [List.filterMap_cons_none hstatus, List.filterMap_nil, List.append_nil, Option.none_or]
  | some status =>
      rw [List.filterMap_cons_some hstatus, List.filterMap_nil, List.getLast?_concat,
        Option.some_or]

theorem returnedBy_snoc (past : List (Unit × Exit PsrpError Bytes)) (x : Exit PsrpError Bytes) :
    returnedBy (past ++ [((), x)]) = returnedBy past ++ outputOf x := by
  rw [returnedBy, returnedBy, List.flatMap_append, List.flatMap_singleton]

/-- What was returned and what is held back is what came. -/
structure Balanced (pending out : Bytes) (s : RusshPipe) : Prop where
  balance : out ++ s.pending = pending ++ stdoutOf s.messages
  /-- What is held back is returned before anything is taken off the channel. -/
  waits : s.pending = [] ∨ s.messages = [] ∧ out = []
  status : s.exitStatus = statusOf s.messages

theorem balanced_new : Balanced pending [] (.new pending) where
  balance := (List.append_nil pending).symm
  waits := .inr ⟨rfl, rfl⟩
  status := rfl

/-- What is held back is returned. -/
theorem Balanced.released (h : Balanced pending out s) :
    Balanced pending (out ++ s.pending) { s with pending := [] } where
  balance := (List.append_nil _).trans h.balance
  waits := .inl rfl
  status := h.status

/-- A message is taken off the channel, and its stdout is returned. -/
theorem Balanced.took (h : Balanced pending out s) (hempty : s.pending = [])
    (hmessages : t.messages = s.messages ++ [msg]) (hpending : t.pending = [])
    (hstatus : t.exitStatus = (reportedBy msg).or s.exitStatus) :
    Balanced pending (out ++ stdout msg) t where
  balance := by
    have hbefore : out = pending ++ stdoutOf s.messages := by
      rw [← h.balance, hempty, List.append_nil]
    rw [hpending, List.append_nil, hmessages, stdoutOf_snoc, hbefore, List.append_assoc]
  waits := .inl hpending
  status := by rw [hstatus, h.status, hmessages, statusOf_snoc]

end Balance

/-- What a read leaves behind. -/
def Reading (pending out : Bytes) (before : List (Option ChannelMsg)) (t : RusshPipe) : Prop :=
  Balanced pending out t ∧ before <+: t.messages

/-- Why a read fails: the channel ended, and this is what is said of it. -/
def Ended (e : PsrpError) (msgs : List (Option ChannelMsg)) : Prop :=
  ∃ msg, msgs.getLast? = some msg ∧ endsChannel msg = true ∧ e = RusshPipe.closedError (statusOf msgs)

/-- A read returns what came next, and what it is dropped on is not lost. -/
theorem wp_read (h : Balanced pending out s) :
    wp (RusshPipe.read : ChannelProg κ Bytes) (Ends (Reading pending out s.messages)
      (fun e t => Reading pending out s.messages t ∧ Ended e t.messages)
      fun data t => Reading pending (out ++ data) s.messages t ∧ data ≠ []) s := by
  unfold RusshPipe.read
  refine wp_getThen ?_
  -- What is held back goes first, and is returned without a wait.
  by_cases hheld : s.pending = []
  · rw [if_neg (not_not.mpr hheld)]
    refine wp_loop (fun _ t => Reading pending out s.messages t ∧ t.pending = [])
      ⟨⟨h, List.prefix_rfl⟩, hheld⟩ (fun _ _ ht => ht.1) ?_
    rintro _ t ⟨⟨ht, hprefix⟩, hempty⟩
    -- A wait that is dropped has taken nothing off the channel.
    refine wp_bind (wp_await (fun a msg _ => ?_) (fun _ => ⟨ht, hprefix⟩) ⟨ht, hprefix⟩)
    refine wp_modifyThen ?_
    have hlonger : s.messages <+: t.messages ++ [msg] := hprefix.trans (List.prefix_append _ _)
    -- A message that reports no exit status.
    have htook : reportedBy msg = none → Balanced pending (out ++ stdout msg) (t.note msg) := by
      intro hnone
      refine ht.took hempty rfl hempty ?_
      rw [hnone, Option.none_or]
      rfl
    -- Such a message without stdout changes nothing.
    have hskipped : reportedBy msg = none → stdout msg = [] → Balanced pending out (t.note msg) := by
      intro hnone hstdout
      have hsame := htook hnone
      rw [hstdout, List.append_nil] at hsame
      exact hsame
    have hended : endsChannel msg = true → reportedBy msg = none → stdout msg = [] →
        Reading pending out s.messages (t.note msg)
          ∧ Ended (RusshPipe.closedError (t.note msg).exitStatus) (t.note msg).messages := by
      intro hends hnone hstdout
      have hsame := hskipped hnone hstdout
      exact ⟨⟨hsame, hlonger⟩, msg, List.getLast?_concat, hends, congrArg _ hsame.status⟩
    rcases msg with _ | msg
    · exact wp_getThen (wp_throw (hended rfl rfl rfl))
    · cases msg with
      | eof => exact wp_getThen (wp_throw (hended rfl rfl rfl))
      | close => exact wp_getThen (wp_throw (hended rfl rfl rfl))
      | success => exact wp_pure ⟨⟨hskipped rfl rfl, hlonger⟩, hempty⟩
      | failure => exact wp_pure ⟨⟨hskipped rfl rfl, hlonger⟩, hempty⟩
      | extendedData data ext => exact wp_pure ⟨⟨hskipped rfl rfl, hlonger⟩, hempty⟩
      | other => exact wp_pure ⟨⟨hskipped rfl rfl, hlonger⟩, hempty⟩
      | data data =>
          by_cases hdata : data = []
          · subst hdata
            exact wp_pure ⟨⟨hskipped rfl rfl, hlonger⟩, hempty⟩
          · simp only [if_pos hdata]
            exact wp_pure ⟨⟨htook rfl, hlonger⟩, hdata⟩
      | exitStatus status =>
          have hreported := ht.took (t := { t.note (some (.exitStatus status)) with
            exitStatus := some status }) hempty rfl hempty rfl
          rw [show stdout (some (.exitStatus status)) = [] from rfl, List.append_nil] at hreported
          exact wp_modifyThen (wp_pure ⟨⟨hreported, hlonger⟩, hempty⟩)
  · rw [if_pos hheld]
    exact wp_modifyThen (wp_pure ⟨⟨h.released, List.prefix_rfl⟩, hheld⟩)

/-- The message that an answer brings. -/
def messagesIn (a : SshAnswer κ) : List (Option ChannelMsg) := (messageAnswer a).toList

/-- A read notes every message that it takes off the channel. -/
theorem accounts_read :
    Accounts RusshPipe.messages messagesIn [] (RusshPipe.read : ChannelProg κ Bytes) := by
  unfold RusshPipe.read
  refine accounts_bind accounts_get fun held => accounts_ite ?_ ?_
  · exact accounts_bind (accounts_modify fun _ => (List.append_nil _).symm) fun _ =>
      accounts_pure _
  · refine accounts_loop (fun _ => accounts_awaitThen fun a msg hmsg => ?_) ()
    have hnote : ∀ s : RusshPipe, (s.note msg).messages = s.messages ++ messagesIn a := by
      intro s
      rw [messagesIn, hmsg]
      rfl
    refine accounts_bind (accounts_modify hnote) fun _ => ?_
    rcases msg with _ | msg
    · exact accounts_bind accounts_get fun _ => accounts_throw _
    · cases msg with
      | eof | close => exact accounts_bind accounts_get fun _ => accounts_throw _
      | success | failure | extendedData | other => exact accounts_pure _
      | data data => exact accounts_ite (accounts_pure _) (accounts_pure _)
      | exitStatus status =>
          exact accounts_bind (accounts_modify fun _ => (List.append_nil _).symm) fun _ =>
            accounts_pure _

/-- What holds of a run of reads. -/
structure Conserved (pending : Bytes) (past : List (Unit × Exit PsrpError Bytes))
    (s : RusshPipe) : Prop where
  balanced : Balanced pending (returnedBy past) s
  /-- No read returns nothing. -/
  chunks : ∀ read ∈ past, ∀ data, read.2 = .ok data → data ≠ []
  /-- A read fails at an end of the channel only. -/
  errors : ∀ read ∈ past, ∀ e, read.2 = .err e → ∃ msgs, msgs <+: s.messages ∧ Ended e msgs

theorem Conserved.snoc {past : List (Unit × Exit PsrpError Bytes)} {x : Exit PsrpError Bytes}
    (h : Conserved pending past s)
    (hread : Reading pending (returnedBy past ++ outputOf x) s.messages t)
    (hok : ∀ data, x = .ok data → data ≠ []) (herr : ∀ e, x = .err e → Ended e t.messages) :
    Conserved pending (past ++ [((), x)]) t where
  balanced := by
    rw [returnedBy_snoc]
    exact hread.1
  chunks := by
    intro read hmem
    rcases List.mem_append.mp hmem with hmem | hmem
    · exact h.chunks read hmem
    · cases List.mem_singleton.mp hmem
      exact hok
  errors := by
    intro read hmem e heq
    rcases List.mem_append.mp hmem with hmem | hmem
    · rcases h.errors read hmem e heq with ⟨msgs, hmsgs, hended⟩
      exact ⟨msgs, hmsgs.trans hread.2, hended⟩
    · cases List.mem_singleton.mp hmem
      exact ⟨t.messages, List.prefix_rfl, herr e heq⟩

/-- One more read. -/
theorem wp_read_conserved {past : List (Unit × Exit PsrpError Bytes)}
    (h : Conserved pending past s) : wp (RusshPipe.read : ChannelProg κ Bytes)
      (fun x t => Conserved pending (past ++ [((), x)]) t) s := by
  refine wp_mono (wp_read h.balanced) fun x t hx => ?_
  -- Only a read that ended well returned something.
  have hdropped : outputOf x = [] → Reading pending (returnedBy past) s.messages t →
      Reading pending (returnedBy past ++ outputOf x) s.messages t := by
    intro hnothing ht
    rw [hnothing, List.append_nil]
    exact ht
  cases x with
  | ok data => exact h.snoc hx.1 (fun _ heq => by cases heq; exact hx.2) nofun
  | err e => exact h.snoc (hdropped rfl hx.1) nofun fun _ heq => by cases heq; exact hx.2
  | cut n => exact h.snoc (hdropped rfl hx) nofun nofun
  | suspended => exact h.snoc (hdropped rfl hx) nofun nofun

/-- However a connection was opened, and whichever reads are dropped: the reads
    return the stdout of the channel since the subsystem request, in order,
    nothing lost and nothing twice, with what came before the subsystem answered
    at the head; a read never returns nothing; and it fails only at an end of
    the channel, with the exit status that was reported last until then. The
    messages of the channel are those that the reads were answered with. -/
theorem channel_stdout [DecidableEq κ] (p : RusshPlatform κ) (hp : p.toSshPlatform.Lawful)
    (config : SshConfig) (script : List (Wake (SshAnswer κ))) (turns : Nat) (pending : Bytes)
    (hconnected : (connect p config ⟨[], script, turns⟩).1 = .ok pending)
    (calls : List (Call (SshAnswer κ) Unit)) :
    let run := play (fun _ => RusshPipe.read) calls (RusshPipe.new pending)
    (∃ earlier msgs, (connect p config ⟨[], script, turns⟩).2.state
        = (earlier ++ [.opened, .subsystem config.subsystem])
          ++ (msgs ++ [some ChannelMsg.success]).map .message
      ∧ returnedBy run.1 ++ run.2.pending = stdoutOf (msgs ++ run.2.messages))
    ∧ (run.2.pending = [] ∨ returnedBy run.1 = [])
    ∧ (∀ read ∈ run.1, ∀ data, read.2 = .ok data → data ≠ [])
    ∧ (∀ read ∈ run.1, ∀ e, read.2 = .err e → ∃ msgs, msgs <+: run.2.messages ∧ Ended e msgs)
    ∧ run.2.messages = (answersTaken (fun _ => RusshPipe.read) calls
      (RusshPipe.new pending)).flatMap messagesIn := by
  intro run
  have hrun : Conserved pending run.1 run.2 :=
    play_run (Conserved pending) (fun _ _ _ h => wp_read_conserved h) calls
      ⟨balanced_new, nofun, nofun⟩
  -- What the connection held back is the stdout before the answer.
  have hopened := @wp_connect _ _ config _ hp script turns
  rw [hconnected] at hopened
  rcases hopened.2 with ⟨msgs, earlier, hpending, _, hhistory⟩
  refine ⟨⟨earlier, msgs, hhistory, ?_⟩, ?_, hrun.chunks, hrun.errors,
    accounts_play (fun _ => accounts_read) calls _⟩
  · rw [hrun.balanced.balance, hpending, stdoutOf, stdoutOf, stdoutOf, List.flatMap_append]
  · exact hrun.balanced.waits.imp_right And.right

/-- A read is dropped, and what comes after it is read all the same. -/
theorem channel_stdout_dropped :
    let reads : List (Call (SshAnswer (Text × Text)) Unit) :=
      [⟨(), [], 5⟩, ⟨(), [.answer (.message (some (.exitStatus 1)))], 5⟩,
        ⟨(), [.answer (.message (some (.data [3])))], 5⟩, ⟨(), [.answer (.message none)], 5⟩]
    let run := play (fun _ => RusshPipe.read) reads (RusshPipe.new [1, 2])
    returnedBy run.1 = [1, 2, 3]
      ∧ (∃ earlier msgs, (connect .basic listedConfig ⟨[], welcome, 9⟩).2.state
          = (earlier ++ [.opened, .subsystem listedConfig.subsystem])
            ++ (msgs ++ [some ChannelMsg.success]).map .message
        ∧ returnedBy run.1 ++ run.2.pending = stdoutOf (msgs ++ run.2.messages))
      ∧ (∀ read ∈ run.1, ∀ e, read.2 = .err e → ∃ msgs, msgs <+: run.2.messages ∧ Ended e msgs)
      ∧ (answersTaken (fun _ => RusshPipe.read) reads (RusshPipe.new [1, 2])).flatMap messagesIn
        = [some (.exitStatus 1), some (.data [3]), none] := by
  intro reads run
  have hrun := channel_stdout .basic SshPlatform.basic_lawful listedConfig welcome 9 [1, 2]
    connect_welcome.1 reads
  exact ⟨by decide +kernel, hrun.1, hrun.2.2.2.1, hrun.2.2.2.2.symm.trans (by decide +kernel)⟩

end Ssh

end Psrp
