import Psrp.Theory.Pool.Mock
import Psrp.Theory.Pool.Operations

/-!
# Object Ids

Which ids the messages of a pool carry, over its whole life.

One counter numbers the messages that one `RunspacePool` gives to its
transport, whatever becomes of them: from the first on, they carry consecutive
ids (`Numbered`). A pool that was created with its opening messages embedded
in the shell goes on after those.

A life of a pool may span several such values: it is opened, used,
disconnected, reconnected and used again. The counter does not survive that,
so what is sent after a reconnect carries ids that were used before
(`ids_unique_iff`).

## Main definitions

* `sentFrames`: The messages given to the transport.
* `Numbered`: Their ids.
* `Lived`: A life.

## Theorems

* `Move.numbered`: Every move keeps the numbering.
* `ids_unique_iff`: Ids are unique as long as nothing is sent after a
  reconnect, and only then.
* `ids_repeat`: A life with a repeated id.
-/

namespace Psrp

/-- The messages that were given to the transport. -/
def sentFrames (h : List PoolEvent) : List Frame :=
  h.filterMap fun e => match e with
    | .sending frame => some frame
    | _ => none

namespace RunspacePool

open Async (wp wp_bind wp_mono Ends Call play)

variable {τ α : Type} {d : Driver τ} {s t u : RunspacePool τ}

/-- The ids of some messages. -/
def idsOf (frames : List Frame) : List Nat := frames.map fun f => f.objectId.toNat

/-- The messages of a pool, after some that were sent before it was there, carry
    consecutive ids, and its counter is at the next one. Its history began with
    some events. -/
structure Numbered (rpid : Uuid) (base : List Frame) (first : List PoolEvent)
    (s : RunspacePool τ) : Prop where
  ids : idsOf (base ++ sentFrames s.history) = List.range' 1 (s.nextObjectId.toNat - 1)
  pos : 1 ≤ s.nextObjectId.toNat
  pool : s.machine.rpid = rpid
  owned : ∀ f ∈ base ++ sentFrames s.history, f.msg.rpid = rpid
  grown : first <+: s.history

section Steps

variable {rpid : Uuid} {base : List Frame} {first : List PoolEvent}

theorem sentFrames_snoc (h : List PoolEvent) (e : PoolEvent) :
    sentFrames (h ++ [e]) = sentFrames h ++ sentFrames [e] := List.filterMap_append ..

/-- The numbering looks at the history, the counter and the id of the pool. -/
theorem Numbered.congr (h : Numbered rpid base first s) (hhistory : t.history = s.history)
    (hnext : t.nextObjectId = s.nextObjectId) (hpool : t.machine.rpid = s.machine.rpid) :
    Numbered rpid base first t where
  ids := by rw [hhistory, hnext]; exact h.ids
  pos := by rw [hnext]; exact h.pos
  pool := hpool.trans h.pool
  owned := by rw [hhistory]; exact h.owned
  grown := by rw [hhistory]; exact h.grown

/-- What is not a message to the server changes nothing. -/
theorem Numbered.note (h : Numbered rpid base first s) {e : PoolEvent} (he : sentFrames [e] = []) :
    Numbered rpid base first (s.note e) where
  ids := by
    rw [RunspacePool.note, sentFrames_snoc, he, List.append_nil]
    exact h.ids
  pos := h.pos
  pool := h.pool
  owned := by
    rw [RunspacePool.note, sentFrames_snoc, he, List.append_nil]
    exact h.owned
  grown := h.grown.trans (List.prefix_append ..)

/-- A message takes the next id. -/
theorem Numbered.begun (h : Numbered rpid base first s) {mt : MessageType} {pid : Uuid} {body : Text}
    {v : τ} (hroom : s.nextObjectId.toNat + 1 < 2 ^ 64) :
    Numbered rpid base first (begun (frame mt pid body s) v s) := by
  have hpos := h.pos
  have hnext : (s.nextObjectId + 1).toNat = s.nextObjectId.toNat + 1 := by
    rw [UInt64.toNat_add, UInt64.toNat_one, Nat.mod_eq_of_lt hroom]
  have hsent : sentFrames (s.history ++ [.sending (frame mt pid body s)])
      = sentFrames s.history ++ [frame mt pid body s] := sentFrames_snoc _ _
  constructor
  · show idsOf (base ++ sentFrames (s.history ++ [_])) = List.range' 1 ((s.nextObjectId + 1).toNat - 1)
    rw [hnext, hsent, ← List.append_assoc, idsOf, List.map_append]
    have hids := h.ids
    rw [idsOf] at hids
    have hsucc : s.nextObjectId.toNat + 1 - 1 = (s.nextObjectId.toNat - 1) + 1 := by omega
    have hlast : 1 + (s.nextObjectId.toNat - 1) = s.nextObjectId.toNat := by omega
    rw [hids, hsucc, List.range'_concat, Nat.one_mul, hlast]
    rfl
  · show 1 ≤ (s.nextObjectId + 1).toNat
    omega
  · exact h.pool
  · intro f hf
    have hf : f ∈ base ++ sentFrames (s.history ++ [.sending (frame mt pid body s)]) := hf
    rw [hsent, ← List.append_assoc, List.mem_append, List.mem_singleton] at hf
    rcases hf with hf | rfl
    · exact h.owned f hf
    · exact h.pool
  · exact h.grown.trans (List.prefix_append ..)

theorem Sends.numbered {q : Bytes → Prog τ Unit} {mt : MessageType} {pid : Uuid} {body : Text}
    {o : Fate} (hsend : Sends q mt pid body s o t) (h : Numbered rpid base first s) :
    Numbered rpid base first t := by
  cases hsend with
  | through v hroom hran => exact (h.begun hroom).note rfl
  | stopped o x v ho hfate hroom hran => exact h.begun hroom
  | exhausted e hfull => exact h.note rfl

theorem Publishes.numbered {o : Fate} (hpub : Publishes d s o t) (h : Numbered rpid base first s) :
    Numbered rpid base first t := by
  cases hpub with
  | started key v hsend =>
      have hsent := (hsend.numbered h).note (e := .exchange key) rfl
      exact hsent.congr rfl rfl rfl
  | stopped key o v ho hsend => exact hsend.numbered h
  | keyless e => exact h.note rfl

theorem FailsEach.numbered {message : String} {ps : List DeferredHostResponse} {o : Fate}
    (hfails : FailsEach d message ps o s t) (h : Numbered rpid base first s) :
    Numbered rpid base first t := by
  induction hfails with
  | nil s => exact h
  | cons hne hsend hrest ih => exact ih (hsend.numbered (h.note rfl))
  | dropped hsend => exact hsend.numbered (h.note rfl)

theorem Took.numbered {msg : PsrpMessage} (htook : Took msg s u) (h : Numbered rpid base first s) :
    Numbered rpid base first u := by
  rcases htook with ⟨_, rest, _, rfl⟩
  have hnoted := h.note (e := .took msg) rfl
  exact hnoted.congr rfl rfl rfl

theorem Numbered.fed (h : Numbered rpid base first s) {chunk : Bytes} {v : τ} {r : Except PsrpError Unit}
    (hfeed : feedChunk chunk (RunspacePool.note (.chunk chunk) { s with transport := v }) = (r, t)) :
    Numbered rpid base first t := by
  rcases feedChunk_eq chunk (RunspacePool.note (.chunk chunk) { s with transport := v })
    with ⟨r', pending, heq⟩
  rw [hfeed] at heq
  subst heq
  have hread : Numbered rpid base first { s with transport := v } := h.congr rfl rfl rfl
  exact (hread.note (e := .chunk chunk) rfl).congr rfl rfl rfl

theorem Deed.numbered {o : Fate} (hdeed : Deed d o s t) (h : Numbered rpid base first s) :
    Numbered rpid base first t := by
  -- Only what is sent takes a number; all else leaves the count.
  cases hdeed with
  | unread hsettled ho hfate hran => exact h.congr rfl rfl rfl
  | fed hsettled hpending hran hfeed => exact h.fed hfeed
  | unfed hsettled hpending hran hfeed => exact h.fed hfeed
  | flushed hparked hkey hsend =>
      rename_i v p ps key
      have hsent := (hsend.numbered (h.note rfl)).note (e := .flushed p) rfl
      exact hsent.congr rfl rfl rfl
  | unflushed ho hparked hkey hsend => exact hsend.numbered (h.note rfl)
  | undecodable htook hmt hdecode => exact htook.numbered h
  | asking htook hmt => exact htook.numbered h
  | silent htook hmt hdecode hwrites => exact (htook.numbered h).note rfl
  | replied htook hmt hdecode hwants hreply hsend => exact hsend.numbered ((htook.numbered h).note rfl)
  | parked htook hmt hdecode hwants hsecure hkey hpending =>
      rename_i v msg call value
      have hnoted := ((htook.numbered h).note (e := .answered msg call (.ok (some value))) rfl).note
        (e := .parked (parkedFor msg call value)) rfl
      exact hnoted.congr rfl rfl rfl
  | parkedFirst htook hmt hdecode hwants hsecure hkey hpending hpub =>
      rename_i v u msg call value
      have hnoted := (hpub.numbered ((htook.numbered h).note rfl)).note
        (e := .parked (parkedFor msg call value)) rfl
      exact hnoted.congr rfl rfl rfl
  | unparked ho htook hmt hdecode hwants hsecure hkey hpending hpub =>
      exact hpub.numbered ((htook.numbered h).note rfl)
  | accepted htook hmt hpending hunwrap =>
      rename_i u msg pair key
      have hnoted := (htook.numbered h).note (e := .keyed key) rfl
      exact hnoted.congr rfl rfl rfl
  | refused htook hmt hpending hunwrap hfails =>
      rename_i u msg pair e
      have hnoted := (htook.numbered h).note (e := .refused e) rfl
      exact hfails.numbered (hnoted.congr rfl rfl rfl)
  | refusing htook hmt hpending hunwrap hfails =>
      rename_i u msg pair e
      have hnoted := (htook.numbered h).note (e := .refused e) rfl
      exact hfails.numbered (hnoted.congr rfl rfl rfl)
  | requested htook hmt hpending hpub => exact hpub.numbered (htook.numbered h)

theorem Move.numbered (hmove : Move d s t) (h : Numbered rpid base first s) :
    Numbered rpid base first t := by
  cases hmove with
  | deed ho hdeed => exact hdeed.numbered h
  | handed hhand =>
      cases hhand with
      | plain htook hcall hkey hrequest => exact (htook.numbered h).note rfl
      | after hsettled hmt => exact h.note rfl
      | ended hsettled hran hidle hempty hmsg =>
          rename_i msg v
          have hread : Numbered rpid base first { s with transport := v } := h.congr rfl rfl rfl
          exact (hread.note (e := .chunk []) rfl).note (e := .handed msg) rfl
  | sent hmt hq hsend => exact hsend.numbered h
  | published hkey hpending hpub => exact hpub.numbered h
  | injected key =>
      have hnoted := h.note (e := .injected key) rfl
      exact hnoted.congr rfl rfl rfl
  | turned machine closed hrpid => exact h.congr rfl rfl hrpid
  | aside v haside => exact h.congr rfl rfl rfl
  | remarked e he =>
      refine h.note ?_
      cases e <;> first | rfl | cases he
  | interrupted hdeed => exact ((hdeed.numbered h).note rfl).note rfl

theorem Moves.numbered (hmoves : Moves d s t) (h : Numbered rpid base first s) :
    Numbered rpid base first t := by
  induction hmoves with
  | refl => exact h
  | tail _ hmove ih => exact hmove.numbered ih

/-- Whatever is done with a pool, its messages are numbered. -/
theorem wp_perform_numbered (op : PoolOperation) (h : Numbered rpid base first s) :
    wp (perform d op) (fun _ t => Numbered rpid base first t) s := by
  refine wp_mono (wp_perform op s) fun x t hx => ?_
  cases x with
  | ok a => exact hx.numbered h
  | err e => exact hx.numbered h
  | cut n | suspended =>
      rcases hx with ⟨u, hsu, rfl | hdeed⟩
      · exact hsu.numbered h
      · exact hdeed.numbered (hsu.numbered h)

end Steps

section Life

/-- A life of the pool with some id, so far: what was sent in its sessions before
    the present one, what was sent of the present one before there was a pool
    for it, and the pool. -/
inductive Lived (d : Driver τ) (rpid : Uuid) :
    List (List Frame) → List Frame → RunspacePool τ → Prop
  /-- Opened by messages. -/
  | opened {transport : τ} {min max : Int32} {s : RunspacePool τ} {script turns w} :
      ofTransport transport rpid min max = .ok s →
      «open» d ⟨s, script, turns⟩ = (.ok (), w) → Lived d rpid [] [] w.state
  /-- Created with its opening messages. -/
  | created {transport : τ} {min max : Int32} {frames : List Frame} {s : RunspacePool τ}
      {script turns w} :
      creationFrames d.platform.toPlatform rpid min max = .ok frames →
      ofOpenedTransport d.platform.toPlatform transport rpid min max = .ok s →
      drainUntilOpened d ⟨s, script, turns⟩ = (.ok (), w) → Lived d rpid [] frames w.state
  /-- Used, and perhaps dropped on the way. -/
  | used {past base} {s : RunspacePool τ} (c : Call Answer PoolOperation) :
      Lived d rpid past base s →
      Lived d rpid past base (perform d c.operation ⟨s, c.script, c.turns⟩).2.state
  /-- Disconnected, and resumed on another transport. -/
  | reconnected {past base pool transport} {s t : RunspacePool τ} {script turns w} :
      Lived d rpid past base s → disconnect d ⟨s, script, turns⟩ = (.ok pool, w) →
      pool.reconnect transport = .ok t →
      Lived d rpid (past ++ [base ++ sentFrames w.state.history]) [] t

/-- What was sent in the sessions of a life. -/
def sessions (past : List (List Frame)) (base : List Frame) (s : RunspacePool τ) :
    List (List Frame) := past ++ [base ++ sentFrames s.history]

/-- A session numbers its messages from one on. -/
def Consecutive (rpid : Uuid) (frames : List Frame) : Prop :=
  (∃ n, idsOf frames = List.range' 1 n) ∧ ∀ f ∈ frames, f.msg.rpid = rpid

variable {rpid : Uuid} {past : List (List Frame)} {base : List Frame}

theorem new_rpid {min max : Int32} {machine : RunspacePoolStateMachine}
    (h : RunspacePoolStateMachine.new rpid min max = .ok machine) :
    machine.rpid = rpid ∧ machine.state = .beforeOpen := by
  unfold RunspacePoolStateMachine.new at h
  split at h
  · cases h
    exact ⟨rfl, rfl⟩
  · cases h

/-- The opening messages are two. -/
theorem open_actions (p : Platform) {m : RunspacePoolStateMachine} (h : m.state = .beforeOpen) :
    ∃ a b, (m.open p).1 = [a, b] := by
  unfold RunspacePoolStateMachine.open
  rw [if_neg (not_not.mpr h)]
  exact ⟨_, _, rfl⟩

theorem creationFrames_ids {p : Platform} {min max : Int32} {frames : List Frame}
    (h : creationFrames p rpid min max = .ok frames) :
    idsOf frames = List.range' 1 2 ∧ ∀ f ∈ frames, f.msg.rpid = rpid := by
  unfold creationFrames at h
  cases hnew : RunspacePoolStateMachine.new rpid min max with
  | error e =>
      rw [hnew] at h
      cases h
  | ok machine =>
      rw [hnew] at h
      rcases new_rpid hnew with ⟨hrpid, hstate⟩
      rcases open_actions p hstate with ⟨a, b, hactions⟩
      simp only [bind, Except.bind, hactions, List.foldlM_cons, List.foldlM_nil, hrpid,
        takeObjectId] at h
      cases h
      refine ⟨rfl, fun f hf => ?_⟩
      simp only [List.nil_append, List.mem_append, List.mem_singleton] at hf
      rcases hf with rfl | rfl <;> rfl

/-- A pool numbers its messages from the one after those it was created with. -/
theorem numbered_attached {transport : τ} {machine : RunspacePoolStateMachine} {n : UInt64}
    {key : Option SessionKey} (hrpid : machine.rpid = rpid) (hpos : 1 ≤ n.toNat)
    (hids : idsOf base = List.range' 1 (n.toNat - 1)) (howned : ∀ f ∈ base, f.msg.rpid = rpid) :
    Numbered rpid base [] (attached transport machine n key) where
  ids := by
    rw [attached, sentFrames, List.filterMap_nil, List.append_nil]
    exact hids
  pos := hpos
  pool := hrpid
  owned := by
    rw [attached, sentFrames, List.filterMap_nil, List.append_nil]
    exact howned
  grown := List.nil_prefix

/-- Opening by messages sends one, at least. -/
theorem wp_open_sends (hs : Numbered rpid [] [] s) (hstate : s.machine.state = .beforeOpen) :
    wp («open» d) (Ends (fun _ => True) (fun _ _ => True)
      fun _ t => Numbered rpid [] [] t ∧ sentFrames t.history ≠ []) s := by
  unfold «open»
  refine wp_bind (Async.wp_update (fun actions t ht => ?_) fun e t ht => (by cases ht))
  rcases hopen : s.machine.open d.platform.toPlatform with ⟨acts, machine⟩
  rcases open_actions d.platform.toPlatform hstate with ⟨a, b, hactions⟩
  have hmachine := machine_open d.platform.toPlatform s.machine
  simp only [hopen] at ht hactions hmachine
  cases ht
  subst hactions
  have hopened : Numbered rpid [] [] { s with machine } := hs.congr rfl rfl hmachine.2
  have hunreserved : ∀ action ∈ [b], isReserved action.messageType = false :=
    fun action h => hmachine.1 action (List.mem_cons_of_mem a h)
  show wp ((sendPsrpMessage d a.messageType a.body >>= fun _ => execute d [b])
    >>= fun _ => drainUntilOpened d) _ { s with machine }
  rw [Async.bind_assoc]
  refine wp_stopThen (wp_sendPsrpMessage _ _) (fun x t hx h => ?_) fun _ t hsend => ?_
  · cases x with
    | ok a => exact absurd rfl (hx a)
    | err e => exact trivial
    | cut n => exact trivial
    | suspended => exact trivial
  · have hrest : Moving d (execute d [b] >>= fun _ => drainUntilOpened d) :=
      moving_bind (moving_execute [b] hunreserved) fun _ => moving_drainUntilOpened
    refine Async.wp_ends (hrest t) (fun _ _ => trivial) (fun _ _ _ => trivial) fun _ u hmoves => ?_
    have ht := hsend.numbered hopened
    have hu := hmoves.numbered (⟨ht.ids, ht.pos, ht.pool, ht.owned, List.prefix_refl _⟩ :
      Numbered rpid [] t.history t)
    refine ⟨hmoves.numbered ht, fun hnone => ?_⟩
    -- The first of the two messages is on record, and stays there.
    rcases hu.grown with ⟨more, hmore⟩
    rw [← hmore, sentFrames, List.filterMap_append] at hnone
    have hnone : sentFrames t.history = [] := (List.append_eq_nil_iff.mp hnone).1
    cases hsend with
    | stopped o x v ho hfate hroom hran => exact ho rfl
    | through v hroom hran =>
        rw [RunspacePool.note, begun, RunspacePool.note, sentFrames_snoc, sentFrames_snoc] at hnone
        simp only [sentFrames, List.filterMap_cons, List.filterMap_nil, List.append_nil,
          List.append_eq_nil_iff, List.cons_ne_nil, and_false] at hnone

/-- Disconnecting sends no message. -/
theorem wp_disconnect {first : List PoolEvent} (h : Numbered rpid base first s) :
    wp (disconnect d) (Ends (fun _ => True) (fun _ _ => True)
      fun pool t => Numbered rpid base first t ∧ pool.rpid = rpid) s := by
  unfold disconnect
  refine Async.wp_getThen ?_
  by_cases hclosed : s.closed = true
  · rw [if_pos hclosed]
    exact Async.wp_throw trivial
  · rw [if_neg hclosed]
    refine Async.wp_modifyThen ?_
    refine wp_bind (Async.wp_attempt (wp_onTransport _ fun x v hran => ?_))
    cases x with
    | ok shellId =>
        refine Async.wp_getThen ?_
        exact Async.wp_pure ⟨h.congr rfl rfl rfl, h.pool⟩
    | err e =>
        refine wp_bind (Async.wp_attempt (wp_onTransport _ fun x v' hran' => ?_))
        cases x with
        | ok a => exact Async.wp_throw trivial
        | err e' => exact Async.wp_throw trivial
        | cut n => exact trivial
        | suspended => exact trivial
    | cut n => exact trivial
    | suspended => exact trivial

theorem sentFrames_grown {h h' : List PoolEvent} (hgrown : h <+: h') :
    ∃ more, sentFrames h' = sentFrames h ++ more := by
  rcases hgrown with ⟨events, rfl⟩
  exact ⟨sentFrames events, List.filterMap_append ..⟩

/-- The first session of a life keeps what it has sent. -/
theorem sessions_grown {frame : Frame} {frames : List Frame} {rest : List (List Frame)}
    (h : sessions past base s = (frame :: frames) :: rest) (hgrown : s.history <+: t.history) :
    ∃ frames' rest', sessions past base t = (frame :: frames') :: rest' := by
  rcases sentFrames_grown hgrown with ⟨more, hmore⟩
  unfold sessions at h ⊢
  cases past with
  | nil =>
      rw [List.nil_append, List.cons.injEq] at h
      refine ⟨frames ++ more, [], ?_⟩
      rw [hmore, ← List.append_assoc, h.1]
      rfl
  | cons first past =>
      rw [List.cons_append, List.cons.injEq] at h
      exact ⟨frames, _, by rw [List.cons_append, h.1]⟩

/-- What is known of a life: its sessions number their messages from one on, the
    first of them has sent something, and the present one goes on counting. -/
theorem Lived.consecutive (h : Lived d rpid past base s) :
    Numbered rpid base [] s ∧ (∀ frames ∈ past, Consecutive rpid frames)
      ∧ ∃ frame frames rest, sessions past base s = (frame :: frames) :: rest := by
  induction h with
  | @opened transport min max s script turns w hnew hopen =>
      unfold ofTransport at hnew
      cases hmachine : RunspacePoolStateMachine.new rpid min max with
      | error e =>
          rw [hmachine] at hnew
          cases hnew
      | ok machine =>
          rw [hmachine] at hnew
          cases hnew
          rcases new_rpid hmachine with ⟨hrpid, hstate⟩
          -- A new pool has sent nothing, and its first number is one.
          have hstart : Numbered rpid [] [] (attached transport machine 1 none) :=
            numbered_attached hrpid (Nat.le_refl 1) rfl fun f hf => (by cases hf)
          have hw := wp_open_sends (d := d) hstart hstate script turns
          rw [hopen] at hw
          refine ⟨hw.1, fun frames hframes => (by cases hframes), ?_⟩
          rcases List.exists_cons_of_ne_nil hw.2 with ⟨frame, frames, hframes⟩
          exact ⟨frame, frames, [], by rw [sessions, hframes]; rfl⟩
  | @created transport min max frames s script turns w hframes hnew hdrain =>
      -- A pool that is created has sent the two opening messages already.
      rcases creationFrames_ids hframes with ⟨hids, howned⟩
      unfold ofOpenedTransport at hnew
      cases hmachine : RunspacePoolStateMachine.new rpid min max with
      | error e =>
          rw [hmachine] at hnew
          cases hnew
      | ok machine =>
          rw [hmachine] at hnew
          cases hnew
          have hrpid := (machine_open d.platform.toPlatform machine).2.trans (new_rpid hmachine).1
          have hstart : Numbered rpid frames [] (attached transport
              (machine.open d.platform.toPlatform).2 3 none) :=
            numbered_attached hrpid (by decide) hids howned
          have hw := moving_drainUntilOpened (d := d) (attached transport
            (machine.open d.platform.toPlatform).2 3 none) script turns
          rw [hdrain] at hw
          refine ⟨Moves.numbered hw hstart, fun frames hframes => (by cases hframes), ?_⟩
          cases frames with
          | nil => cases hids
          | cons frame frames => exact ⟨frame, frames ++ sentFrames w.state.history, [], rfl⟩
  | @used past base s c hs ih =>
      rcases ih with ⟨hnumbered, hpast, frame, frames, rest, hsessions⟩
      -- Whatever is done with it, the numbers go on from there.
      have hkept := wp_perform_numbered (d := d) c.operation hnumbered c.script c.turns
      have hgrown := wp_perform_numbered (d := d) c.operation (⟨hnumbered.ids, hnumbered.pos,
        hnumbered.pool, hnumbered.owned, List.prefix_refl _⟩ :
        Numbered rpid base s.history s) c.script c.turns
      exact ⟨hkept, hpast, frame, sessions_grown hsessions hgrown.grown⟩
  | @reconnected past base pool transport s t script turns w hs hdisconnect hreconnect ih =>
      rcases ih with ⟨hnumbered, hpast, frame, frames, rest, hsessions⟩
      -- A session ends with its frames, and the next one numbers from one again.
      have hw := wp_disconnect (d := d) (⟨hnumbered.ids, hnumbered.pos, hnumbered.pool,
        hnumbered.owned, List.prefix_refl _⟩ : Numbered rpid base s.history s) script turns
      rw [hdisconnect] at hw
      rcases hw with ⟨hleft, hpool⟩
      unfold DisconnectedPool.reconnect at hreconnect
      cases hmachine : RunspacePoolStateMachine.new pool.rpid pool.minRunspaces
          pool.maxRunspaces with
      | error e =>
          rw [hmachine] at hreconnect
          cases hreconnect
      | ok machine =>
          rw [hmachine] at hreconnect
          cases hreconnect
          have hrpid : machine.connect.2.rpid = rpid := by
            unfold RunspacePoolStateMachine.connect
            split_ifs <;> exact (new_rpid hmachine).1.trans hpool
          refine ⟨numbered_attached hrpid (Nat.le_refl 1) rfl fun f hf => (by cases hf),
            fun frames' hframes' => ?_, ?_⟩
          · rw [List.mem_append, List.mem_singleton] at hframes'
            rcases hframes' with hold | rfl
            · exact hpast frames' hold
            · exact ⟨⟨_, hleft.ids⟩, hleft.owned⟩
          · rcases sessions_grown hsessions hleft.grown with ⟨frames', rest', hfirst⟩
            refine ⟨frame, frames', rest' ++ [[]], ?_⟩
            rw [sessions] at hfirst
            rw [sessions, hfirst]
            rfl

/-- A life goes on with some operations. -/
theorem Lived.played (h : Lived d rpid past base s) (calls : List (Call Answer PoolOperation)) :
    Lived d rpid past base (play (perform d) calls s).2 := by
  induction calls generalizing s with
  | nil => exact h
  | cons c calls ih => exact ih (h.used c)

/-- Ids are unique over a life exactly when nothing was sent after a reconnect.
    All messages carry the id of the pool. -/
theorem ids_unique_iff (d : Driver τ) (rpid : Uuid) (past : List (List Frame)) (base : List Frame)
    (s : RunspacePool τ) (h : Lived d rpid past base s) :
    ((idsOf (sessions past base s).flatten).Nodup ↔ (sessions past base s).tail.flatten = [])
      ∧ ∀ f ∈ (sessions past base s).flatten, f.msg.rpid = rpid := by
  rcases h.consecutive with ⟨hnumbered, hpast, frame, frames, rest, hsessions⟩
  have hall : ∀ session ∈ (frame :: frames) :: rest, Consecutive rpid session := by
    intro session hsession
    rw [← hsessions, sessions, List.mem_append, List.mem_singleton] at hsession
    rcases hsession with hold | rfl
    · exact hpast session hold
    · exact ⟨⟨_, hnumbered.ids⟩, hnumbered.owned⟩
  rw [hsessions]
  refine ⟨⟨fun hnodup => ?_, fun hnone => ?_⟩, fun f hf => ?_⟩
  · by_contra hsome
    -- A later session that sent something began with the same id.
    rcases List.exists_mem_of_ne_nil _ hsome with ⟨f, hf⟩
    rw [List.tail_cons, List.mem_flatten] at hf
    rcases hf with ⟨session, hsession, hf⟩
    have hone : ∀ session ∈ (frame :: frames) :: rest, session ≠ [] → 1 ∈ idsOf session := by
      intro session hsession hne
      rcases (hall session hsession).1 with ⟨n, hn⟩
      rw [hn, List.mem_range'_1]
      have hlen := congrArg List.length hn
      rw [idsOf, List.length_map, List.length_range'] at hlen
      have hpos := List.length_pos_of_ne_nil hne
      omega
    have hfirst := hone _ List.mem_cons_self (List.cons_ne_nil frame frames)
    have hlater := hone session (List.mem_cons_of_mem _ hsession) (List.ne_nil_of_mem hf)
    rw [List.flatten_cons, idsOf, List.map_append] at hnodup
    refine (List.nodup_append.mp hnodup).2.2 1 hfirst 1 ?_ rfl
    rw [List.map_flatten, List.mem_flatten]
    exact ⟨_, List.mem_map_of_mem hsession, hlater⟩
  · rw [List.tail_cons] at hnone
    rcases (hall _ List.mem_cons_self).1 with ⟨n, hn⟩
    rw [List.flatten_cons, hnone, List.append_nil, hn]
    exact List.nodup_range' 1
  · rw [List.mem_flatten] at hf
    rcases hf with ⟨session, hsession, hf⟩
    exact (hall session hsession).2 f hf

/-- What the server says when a pool is open. -/
def openedMessage : PsrpMessage :=
  numberMessage Platform.basic .runspacePoolState Uuid.nil Uuid.nil "RunspaceState" 2

/-- A pool that waits for the server to say that it is open, which it does. -/
def openingPool : RunspacePool MockTransport :=
  attached { MockTransport.new with inbox := [serverBytes openedMessage] }
    { freshMachine with state := .negotiationSent } 3 none

/-- The pool after that. -/
def openedPool : RunspacePool MockTransport :=
  { delivered openedMessage [] (fed openedMessage [] openingPool) with
    machine := { freshMachine with state := .opened } }

theorem drain_opening : drainUntilOpened mockDriver ⟨openingPool, [], 2⟩
    = (.ok (), ⟨openedPool, [], 2⟩) := by
  have hread : nextMessage mockDriver ⟨openingPool, [], 2⟩
      = (.ok openedMessage, ⟨delivered openedMessage [] (fed openedMessage [] openingPool), [], 2⟩) :=
    nextMessage_received (w := ⟨openingPool, [], 2⟩) (by decide) rfl rfl rfl rfl rfl
      (by decide +kernel) (PsrpMessage.decode_encode _ (by decide +kernel) fun c h => (by cases h))
      rfl
  have hparse : parseClixml Platform.basic openedMessage.data
      = .ok [.object (numberObject "RunspaceState" 2)] :=
    parse_numberBody Platform.basic_lawful 2 (by decide)
  have hextract : extractRunspaceState Platform.basic openedMessage.data = .ok .opened := by
    rw [extractRunspaceState, hparse]
    rfl
  have hmachine : ({ freshMachine with state := .negotiationSent } :
      RunspacePoolStateMachine).onMessage Platform.basic openedMessage
        = (.ok (), { freshMachine with state := .opened }) := by
    unfold RunspacePoolStateMachine.onMessage
    rw [hextract]
    rfl
  have hupdate : onMessage mockDriver openedMessage
      (delivered openedMessage [] (fed openedMessage [] openingPool)) = (.ok (), openedPool) := by
    rw [onMessage]
    have hstart : (delivered openedMessage [] (fed openedMessage [] openingPool)).machine
        = { freshMachine with state := .negotiationSent } := rfl
    have hplatform : mockDriver.platform.toPlatform = Platform.basic := rfl
    rw [hstart, hplatform, hmachine]
    simp only [openedPool]
  have hopened : openedPool.machine.isOpened = true := by
    simp only [openedPool, RunspacePoolStateMachine.isOpened, decide_true]
  rw [drainUntilOpened, Async.loop, Async.turnsOf, Async.bind_apply, Async.bind_apply, hread]
  simp only [Async.bind_apply, Async.update, hupdate, Async.get, hopened, if_true, Async.pure_apply]

/-- A life that has just begun. -/
theorem created_life : ∃ frames, Lived mockDriver Uuid.nil [] frames openedPool
    ∧ idsOf frames = [1, 2] := by
  have hnew : RunspacePoolStateMachine.new Uuid.nil 1 1 = .ok freshMachine := rfl
  have hframes : ∃ frames, creationFrames mockDriver.platform.toPlatform Uuid.nil 1 1
      = .ok frames := by
    unfold creationFrames
    rw [hnew]
    exact ⟨_, rfl⟩
  rcases hframes with ⟨frames, hframes⟩
  refine ⟨frames, ?_, (creationFrames_ids hframes).1⟩
  refine @Lived.created _ mockDriver Uuid.nil openingPool.transport _ _ frames openingPool _ _ _
    hframes ?_ drain_opening
  unfold ofOpenedTransport
  rw [hnew]
  rfl

/-- A pool on the transport that waits for nothing can always be
    disconnected. -/
theorem disconnect_mock {s : RunspacePool MockTransport} (h : s.closed = false) (script turns) :
    disconnect mockDriver ⟨s, script, turns⟩ = (.ok
      { shellId := "MOCK-SHELL-ID".toList, rpid := s.machine.rpid,
        minRunspaces := s.machine.minRunspaces, maxRunspaces := s.machine.maxRunspaces,
        sessionKey := s.sessionKey },
      ⟨{ s with closed := true, transport := { s.transport with closed := true } },
        script, turns⟩) := by
  unfold disconnect
  rw [Async.bind_apply]
  simp only [Async.get, h]
  rfl

/-- A pipeline is started, and an input object is written to it. -/
def feeding : List (Call Answer PoolOperation) :=
  [{ operation := .start
      { commands := [⟨"Sort-Object".toList, [], false, false⟩], noInput := false,
        addInvocationInfo := false, addToHistory := false } Uuid.nil
     script := [], turns := 0 },
    { operation := .writeInput ⟨Uuid.nil, Uuid.nil, false⟩ .null, script := [], turns := 0 }]

/-- The pool after that. -/
def fedPool : RunspacePool MockTransport := (play (perform mockDriver) feeding openedPool).2

/-- A pool that was disconnected then, and resumed. -/
def resumedPool : RunspacePool MockTransport :=
  attached MockTransport.new { freshMachine with state := .opened } 1 none

/-- A life with a reconnect. -/
theorem resumed_life : ∃ frames, idsOf frames = [1, 2]
    ∧ Lived mockDriver Uuid.nil [] frames fedPool
    ∧ Lived mockDriver Uuid.nil (sessions [] frames fedPool) [] resumedPool := by
  rcases created_life with ⟨frames, hlife, hids⟩
  have hfed := hlife.played feeding
  have hmachine : fedPool.machine = { freshMachine with state := .opened } := by decide +kernel
  have hkey : fedPool.sessionKey = none := Option.isNone_iff_eq_none.mp (by decide +kernel)
  have hclosed : fedPool.closed = false := by decide +kernel
  refine ⟨frames, hids, hfed, ?_⟩
  have hresumed : DisconnectedPool.reconnect
      { shellId := "MOCK-SHELL-ID".toList, rpid := fedPool.machine.rpid,
        minRunspaces := fedPool.machine.minRunspaces, maxRunspaces := fedPool.machine.maxRunspaces,
        sessionKey := fedPool.sessionKey } MockTransport.new = .ok resumedPool := by
    rw [hmachine, hkey]
    rfl
  exact Lived.reconnected hfed (disconnect_mock hclosed [] 0) hresumed

/-- As long as nothing is sent after the reconnect, the ids are unique; then a
    pipeline is started. -/
theorem ids_unique_iff_created : ∃ frames,
    let past := sessions [] frames fedPool
    idsOf past.flatten = [1, 2, 3, 4]
      ∧ (idsOf (sessions past [] resumedPool).flatten).Nodup
      ∧ ¬ (idsOf (sessions past [] (play (perform mockDriver) feeding resumedPool).2).flatten).Nodup
        := by
  rcases resumed_life with ⟨frames, hids, _, hresumed⟩
  refine ⟨frames, ?_, ?_, fun hnodup => ?_⟩
  · have hmore : idsOf (sentFrames fedPool.history) = [3, 4] := by decide +kernel
    rw [sessions, List.nil_append, List.flatten_singleton, idsOf, List.map_append]
    exact congrArg₂ (· ++ ·) hids hmore
  · exact (ids_unique_iff _ _ _ _ _ hresumed).1.mpr rfl
  · have hnone := (ids_unique_iff _ _ _ _ _ (hresumed.played feeding)).1.mp hnodup
    have hsent : sentFrames (play (perform mockDriver) feeding resumedPool).2.history ≠ [] := by
      decide +kernel
    refine hsent ?_
    rw [sessions, sessions, List.nil_append, List.singleton_append, List.tail_cons,
      List.flatten_singleton, List.nil_append] at hnone
    exact hnone

/-- A pool that is created, disconnected and resumed starts a pipeline with a
    message under an id it has used before. -/
theorem ids_repeat : ¬ ∀ (τ : Type) (d : Driver τ) rpid past base s, Lived d rpid past base s →
    (idsOf (sessions past base s).flatten).Nodup := by
  intro h
  rcases resumed_life with ⟨frames, hids, _, hresumed⟩
  have hnodup := h _ _ _ _ _ _ (hresumed.played feeding)
  have hone : 1 ∈ idsOf frames := by
    rw [hids]
    exact List.mem_cons_self
  have hagain : 1 ∈ idsOf (sentFrames (play (perform mockDriver) feeding resumedPool).2.history) := by
    decide +kernel
  rw [sessions, sessions, List.nil_append, List.singleton_append, List.flatten_cons,
    List.flatten_singleton, List.nil_append, idsOf, List.map_append, List.map_append] at hnodup
  exact (List.nodup_append.mp hnodup).2.2 1 (List.mem_append_left _ hone) 1 hagain rfl

end Life

end RunspacePool

end Psrp
