import Psrp.Core.Ssh
import Psrp.Theory.KnownHosts.Verdict

/-!
# Whom Credentials Are Given To

An SSH connection gives its credentials to nobody whose key was not vouched for.

The handler does not see the credentials, and what gives them away does not see
the key: between the two is the SSH library. What is assumed of it is `Heeds`,
that it hands out a connection only right after a key that the handler took.
Everything else is the program's own: what it takes a key on (`Vouched`), and
that the credentials come right after the connection (`Allowed`).

`Vouched` says of the key itself what the policy asks for. Of a `known_hosts`
file that is what was read right before, not what the file says by now.

## Main definitions

* `Vouched`: A host key that the policy lets pass.
* `Allowed`, `Lawful`: What must have happened before an event.
* `Heeds`: What is assumed of the SSH library.
* `Guarded`: What is promised of a connection.

## Theorems

* `constantTimeEq_iff`: The comparison without a shortcut compares.
* `credentials_guarded`: It holds of every connection.
-/

namespace Psrp

/-- The comparison that takes the same time for all is a comparison. -/
theorem constantTimeEq_iff (a b : Bytes) : constantTimeEq a b = true ↔ a = b := by
  have hfold : ∀ (a b : Bytes) (diff : UInt8), a.length = b.length →
      ((a.zip b).foldl (fun diff pair => diff ||| (pair.1 ^^^ pair.2)) diff = 0 ↔ diff = 0 ∧ a = b) := by
    intro a
    induction a with
    | nil =>
        intro b diff hlen
        rw [List.length_eq_zero_iff.mp hlen.symm]
        simp only [List.zip_nil_left, List.foldl_nil, and_true]
    | cons x a ih =>
        intro b diff hlen
        cases b with
        | nil => cases hlen
        | cons y b =>
            rw [List.zip_cons_cons, List.foldl_cons, ih b _ (Nat.succ.inj hlen),
              UInt8.or_eq_zero_iff, UInt8.xor_eq_zero_iff, List.cons.injEq, and_assoc]
  -- The bytes of a pair are its components.
  change (if a.length ≠ b.length then false
    else (a.zip b).foldl (fun diff pair => diff ||| (pair.1 ^^^ pair.2)) 0 == 0) = true ↔ a = b
  by_cases hlen : a.length = b.length
  · rw [if_neg (not_not.mpr hlen), beq_iff_eq, hfold a b 0 hlen, eq_self, true_and]
  · rw [if_pos hlen]
    exact iff_of_false Bool.false_ne_true fun heq => hlen (congrArg List.length heq)

namespace Ssh

open Async

variable {κ : Type} {p : RusshPlatform κ} {config : SshConfig}
  {h before : List (SshEvent κ)} {e : SshEvent κ}

/-- A host key that the policy lets pass, by what was read right before. -/
inductive Vouched (p : RusshPlatform κ) (config : SshConfig) (before : List (SshEvent κ)) :
    HostKey κ → Prop
  /-- Every key, of those who ask for that. -/
  | any (key) : config.hostKeyPolicy = .acceptAny → Vouched p config before key
  /-- The key that was expected. -/
  | pinned (key fingerprint) : config.hostKeyPolicy = .pinned fingerprint →
      p.fingerprint key = some fingerprint → Vouched p config before (.publicKey key)
  /-- A key that an entry for the host lists and no entry revokes. -/
  | known (key path contents) : config.hostKeyPolicy = .knownHosts path →
      before.getLast? = some (.read path (.ok contents)) →
      ¬ Speaks p.toSshPlatform contents config.host config.port key (some .revoked) →
      Speaks p.toSshPlatform contents config.host config.port key none →
      Vouched p config before (.publicKey key)

/-- What must have happened before an event. -/
def Allowed (p : RusshPlatform κ) (config : SshConfig) (before : List (SshEvent κ)) :
    SshEvent κ → Prop
  | .connecting _ => before = [] ∧ validSshHost config.host = true ∧ config.ackTimeout ≠ 0
  | .read path _ => config.hostKeyPolicy = .knownHosts path
  | .checked key accepted => accepted = true ↔ Vouched p config before key
  | .connected => .connected ∉ before
  | .authenticating username auth => before.getLast? = some .connected
      ∧ username = config.username ∧ auth = config.auth ∧ auth ≠ .agent
  | .authenticated => before.getLast? = some (.authenticating config.username config.auth)
  | .opened => before.getLast? = some .authenticated
  | .subsystem name => before.getLast? = some .opened ∧ name = config.subsystem
  | .message _ => .subsystem config.subsystem ∈ before

/-- A history in which everything was allowed. -/
def Lawful (p : RusshPlatform κ) (config : SshConfig) (h : List (SshEvent κ)) : Prop :=
  ∀ before e after, h = before ++ e :: after → Allowed p config before e

/-- What is assumed of the SSH library: it hands out a connection only right
    after the handler took a key. -/
def Heeds (h : List (SshEvent κ)) : Prop :=
  ∀ before after, h = before ++ .connected :: after →
    ∃ key, before.getLast? = some (.checked key true)

section Histories

theorem lawful_nil : Lawful p config [] := by
  intro before e after heq
  cases before <;> cases heq

theorem Lawful.snoc (hh : Lawful p config h) (he : Allowed p config h e) :
    Lawful p config (h ++ [e]) := by
  intro before e' after heq
  rcases split_of_snoc heq with ⟨rfl, _, rfl⟩ | ⟨rest, _, rfl⟩
  · exact he
  · exact hh before e' rest rfl

theorem Lawful.initial {rest : List (SshEvent κ)} (hh : Lawful p config (h ++ rest)) :
    Lawful p config h := by
  rintro before e after rfl
  exact hh before e (after ++ rest) (List.append_assoc ..)

/-- What came before an event was allowed too. -/
theorem Lawful.of_mem (hh : Lawful p config h) (he : e ∈ h) :
    ∃ before, before <+: h ∧ Allowed p config before e := by
  rcases List.append_of_mem he with ⟨before, after, rfl⟩
  exact ⟨before, List.prefix_append _ _, hh before e after rfl⟩

/-- A handshake goes on. -/
def Shaking (p : RusshPlatform κ) (config : SshConfig) (h : List (SshEvent κ)) : Prop :=
  Lawful p config h ∧ .connected ∉ h

theorem Shaking.snoc (hh : Shaking p config h) (he : Allowed p config h e) (hne : e ≠ .connected) :
    Shaking p config (h ++ [e]) := by
  refine ⟨hh.1.snoc he, fun hmem => ?_⟩
  rcases List.mem_append.mp hmem with hmem | hmem
  · exact hh.2 hmem
  · exact hne (List.mem_singleton.mp hmem).symm

end Histories

theorem wp_record {Q : Exit PsrpError Unit → List (SshEvent κ) → Prop} (hQ : Q (.ok ()) (h ++ [e])) :
    wp (record e) Q h := wp_modify hQ

section HostKeys

variable [DecidableEq κ]

/-- A key is verified as the policy asks. -/
theorem wp_verifyHostKey (hp : p.toSshPlatform.Lawful) (hh : Shaking p config h) (key : κ) :
    wp (verifyHostKey p config.hostKeyPolicy config.host config.port key)
      (Ends (Shaking p config) (fun _ => Shaking p config) fun r t => Shaking p config t
        ∧ (r = .ok () ↔ Vouched p config t (.publicKey key))) h := by
  -- A policy vouches for a key in its own way only.
  have hother : ∀ {policy : HostKeyPolicy} {t : List (SshEvent κ)}, config.hostKeyPolicy = policy →
      policy ≠ .acceptAny → (∀ fingerprint, policy = .pinned fingerprint →
        p.fingerprint key ≠ some fingerprint) → (∀ path, policy ≠ .knownHosts path) →
      ¬ Vouched p config t (.publicKey key) := by
    rintro policy t rfl hany hpinned hknown (⟨key, heq⟩ | ⟨key, fingerprint, heq, hkey⟩
      | ⟨key, path, contents, heq, _, _, _⟩)
    · exact hany heq
    · exact hpinned fingerprint heq hkey
    · exact hknown path heq
  cases hpolicy : config.hostKeyPolicy with
  | acceptAny => exact wp_pure ⟨hh, fun _ => .any _ hpolicy, fun _ => rfl⟩
  | pinned expected =>
      unfold verifyHostKey
      cases hkey : p.fingerprint key with
      | none =>
          refine wp_pure ⟨hh, fun hr => ?_, fun hv => ?_⟩
          · cases hr
          · refine absurd hv (hother hpolicy ?_ ?_ ?_)
            · exact fun h => by cases h
            · exact fun _ _ h => by cases hkey.symm.trans h
            · exact fun _ h => by cases h
      | some actual =>
          simp only []
          -- The comparison in constant time is an equality.
          by_cases heq : actual = expected
          · have hsame : constantTimeEq actual.toList expected.toList = true := by
              rw [constantTimeEq_iff, heq]
            rw [if_pos hsame]
            exact wp_pure ⟨hh, fun _ => .pinned key expected hpolicy (heq ▸ hkey), fun _ => rfl⟩
          · have hdiffer : ¬ constantTimeEq actual.toList expected.toList = true := by
              rw [constantTimeEq_iff, Vector.toList_inj]
              exact heq
            rw [if_neg hdiffer]
            refine wp_pure ⟨hh, fun hr => ?_, fun hv => ?_⟩
            · cases hr
            · refine absurd hv (hother hpolicy ?_ ?_ ?_)
              · exact fun h => by cases h
              · rintro fingerprint h hfp
                cases h
                exact heq (Option.some.inj (hkey.symm.trans hfp))
              · exact fun _ h => by cases h
  | knownHosts path =>
      unfold verifyHostKey
      refine wp_bind (wp_choose fun contents => ?_)
      -- The file is read right before the verdict, so it is the last event.
      have hread : Shaking p config (h ++ [.read path contents]) := hh.snoc hpolicy nofun
      refine wp_bind (wp_record (wp_pure ⟨hread, ?_⟩))
      have hlast : (h ++ [SshEvent.read path contents]).getLast? = some (.read path contents) :=
        List.getLast?_concat
      cases contents with
      | error why =>
          refine iff_of_false (fun hr => by cases hr) ?_
          rintro (⟨_, heq⟩ | ⟨_, _, heq, _⟩ | ⟨_, _, _, _, hbefore, _, _⟩)
          · cases hpolicy.symm.trans heq
          · cases hpolicy.symm.trans heq
          · cases hlast.symm.trans hbefore
      | ok contents =>
          -- The verdict on the file is what vouches for the key.
          have hverdict := knownHostsVerdict_iff hp contents config.host config.port key
          have hok : verifyAgainstKnownHosts p.toSshPlatform path (.ok contents) config.host
              config.port key = .ok () ↔ p.knownHostsVerdict contents config.host config.port key
                = .trusted := by
            cases hv : p.knownHostsVerdict contents config.host config.port key with
            | trusted => simp only [verifyAgainstKnownHosts, hv]
            | revoked => simp only [verifyAgainstKnownHosts, hv, reduceCtorEq]
            | notTrusted => simp only [verifyAgainstKnownHosts, hv, reduceCtorEq]
          rw [hok, hverdict.2.1]
          constructor
          · exact fun hspeaks => .known key path contents hpolicy hlast hspeaks.1 hspeaks.2
          · rintro (⟨_, heq⟩ | ⟨_, _, heq, _⟩ | ⟨_, path', contents', _, hbefore, hno, hyes⟩)
            · cases hpolicy.symm.trans heq
            · cases hpolicy.symm.trans heq
            · cases hlast.symm.trans hbefore
              exact ⟨hno, hyes⟩

/-- A key is let pass as the policy asks. -/
theorem wp_accepts (hp : p.toSshPlatform.Lawful) (hh : Shaking p config h) (key : HostKey κ) :
    wp (accepts p config key) (Ends (Shaking p config) (fun _ => Shaking p config)
      fun accepted t => Shaking p config t ∧ (accepted = true ↔ Vouched p config t key)) h := by
  cases key with
  | certificate =>
      refine wp_pure ⟨hh, ?_⟩
      rw [decide_eq_true_iff]
      constructor
      · exact fun heq => .any _ heq
      · rintro ⟨_, heq⟩
        exact heq
  | publicKey key =>
      refine wp_seq (wp_verifyHostKey hp hh key) (fun _ => id) (fun _ _ => id) ?_
      rintro r t ⟨ht, hiff⟩
      cases r with
      | ok _ => exact wp_pure ⟨ht, iff_of_true rfl (hiff.mp rfl)⟩
      | error why =>
          refine wp_pure ⟨ht, iff_of_false Bool.false_ne_true fun hv => ?_⟩
          cases hiff.mpr hv

/-- A key is checked. -/
theorem wp_checkServerKey (hp : p.toSshPlatform.Lawful) (hh : Shaking p config h)
    (key : HostKey κ) : wp (checkServerKey p config key) (Ends (Shaking p config)
      (fun _ => Shaking p config) fun _ => Shaking p config) h := by
  refine wp_seq (wp_accepts hp hh key) (fun _ => id) (fun _ _ => id) ?_
  rintro accepted t ⟨ht, hiff⟩
  refine wp_bind (wp_record ?_)
  exact wp_pure (ht.snoc (e := .checked key accepted) hiff fun heq => by cases heq)

/-- A handshake ends with a connection, or is dropped. -/
theorem wp_handshake (hp : p.toSshPlatform.Lawful) (hh : Shaking p config h) :
    wp (handshake p config) (Ends (Shaking p config) (fun _ => Shaking p config) fun _ t =>
      ∃ before, t = before ++ [.connected] ∧ Shaking p config before) h := by
  refine wp_loop (fun _ t => Shaking p config t) hh (fun _ _ ht => ht) fun _ t ht => ?_
  refine wp_bind (wp_await (fun a x hx => ?_) (fun _ => ht) ht)
  -- The library may ask about any number of keys before it gives up or is done.
  rcases x with (why | _) | key
  · exact wp_throw ht
  · exact wp_bind (wp_record (wp_pure ⟨t, rfl, ht⟩))
  · refine wp_bind (wp_mono (wp_checkServerKey hp ht key) fun x u hu => ?_)
    cases x with
    | ok accepted => exact wp_pure hu
    | err e => exact hu
    | cut n => exact hu
    | suspended => exact hu

end HostKeys

section Credentials

/-- A wait for the library, and an error of it. -/
theorem wp_ask {α : Type} {read : SshAnswer κ → Option (Except String α)} {what : String}
    (hh : Lawful p config h) : wp (ask read what) (Ends (Lawful p config)
      (fun _ => Lawful p config) fun _ t => t = h) h := by
  refine wp_bind (wp_await (fun a x hx => ?_) (fun _ => hh) hh)
  cases x with
  | ok a => exact wp_pure rfl
  | error why => exact wp_throw hh

/-- Credentials are given away right after the connection. -/
theorem wp_authenticate (hh : Lawful p config (before ++ [.connected])) :
    wp (authenticate config) (Ends (Lawful p config) (fun _ => Lawful p config) fun _ t =>
      t = before ++ [.connected, .authenticating config.username config.auth]
        ∧ Lawful p config t) (before ++ [.connected]) := by
  have hgiven : ∀ {auth : SshAuth}, config.auth = auth → auth ≠ .agent → Lawful p config
      ((before ++ [.connected]) ++ [.authenticating config.username auth]) := fun hauth hne =>
    hh.snoc ⟨List.getLast?_concat, rfl, hauth.symm, hne⟩
  have hasked : ∀ {auth : SshAuth} {what : String}, config.auth = auth → auth ≠ .agent →
      wp (record (.authenticating config.username auth) >>= fun _ => ask admittedAnswer what)
        (Ends (Lawful p config) (fun _ => Lawful p config) fun _ t =>
          t = before ++ [.connected, .authenticating config.username auth] ∧ Lawful p config t)
        (before ++ [.connected]) := by
    intro auth what hauth hne
    refine wp_bind (wp_record (wp_ends (wp_ask (hgiven hauth hne)) (fun _ => id) (fun _ _ => id) ?_))
    rintro success t rfl
    refine ⟨?_, hgiven hauth hne⟩
    rw [List.append_assoc]
    rfl
  unfold authenticate
  cases hauth : config.auth with
  | password password => exact hasked hauth nofun
  | privateKey path passphrase =>
      refine wp_bind (wp_choose fun loaded => ?_)
      cases loaded with
      | error why => exact wp_throw hh
      | ok _ => exact hasked hauth nofun
  | agent => exact wp_throw hh

/-- The stdout of a message. -/
def stdout : Option ChannelMsg → Bytes
  | some (.data data) => data
  | _ => []

/-- The stdout of some messages. -/
def stdoutOf (msgs : List (Option ChannelMsg)) : Bytes := msgs.flatMap stdout

/-- What a connection has read when the subsystem answers. -/
def Awaited (config : SshConfig) (pending : Bytes) (msgs : List (Option ChannelMsg))
    (h : List (SshEvent κ)) : Prop :=
  (∃ earlier, h = (earlier ++ [.opened, .subsystem config.subsystem]) ++ msgs.map .message)
    ∧ pending = stdoutOf msgs ∧ pending.length ≤ MAX_PRE_REPLY_BYTES

theorem Awaited.message {pending : Bytes} {msgs : List (Option ChannelMsg)}
    (hawait : Awaited config pending msgs h) (hh : Lawful p config h) (msg : Option ChannelMsg) :
    Lawful p config (h ++ [.message msg]) ∧ ∃ earlier, h ++ [.message msg]
      = (earlier ++ [.opened, .subsystem config.subsystem]) ++ (msgs ++ [msg]).map .message := by
  rcases hawait.1 with ⟨earlier, rfl⟩
  constructor
  · refine hh.snoc ?_
    simp only [Allowed, List.mem_append, List.mem_cons, true_or, or_true]
  · refine ⟨earlier, ?_⟩
    rw [List.map_append, List.append_assoc]
    rfl

/-- The wait for the subsystem keeps the stdout that comes before its answer, in
    order, up to the most that it takes. -/
theorem wp_awaitSubsystem (hh : Lawful p config h) (hopened : ∃ earlier,
    h = earlier ++ [.opened, .subsystem config.subsystem]) :
    wp (awaitSubsystem p.packet config) (Ends (Lawful p config) (fun _ => Lawful p config)
      fun pending t => Lawful p config t ∧ ∃ msgs earlier, pending = stdoutOf msgs
        ∧ pending.length ≤ MAX_PRE_REPLY_BYTES
        ∧ t = (earlier ++ [.opened, .subsystem config.subsystem])
          ++ (msgs ++ [some ChannelMsg.success]).map .message) h := by
  -- The invariant of the loop: what is pending is the stdout of the messages so far.
  refine wp_loop (fun pending t => Lawful p config t ∧ ∃ msgs, Awaited config pending msgs t) ?_
    (fun _ _ ht => ht.1) ?_
  · rcases hopened with ⟨earlier, rfl⟩
    exact ⟨hh, [], ⟨earlier, (List.append_nil _).symm⟩, rfl, Nat.zero_le _⟩
  · rintro pending t ⟨ht, msgs, hawait⟩
    refine wp_bind (wp_await (fun a msg hmsg => ?_) (fun _ => ht) ht)
    rcases hawait.message ht msg with ⟨hlawful, earlier, heq⟩
    refine wp_bind (wp_record ?_)
    rcases hawait with ⟨_, hpending, hlen⟩
    -- A message without stdout changes nothing.
    have hskip : stdout msg = [] → Awaited config pending (msgs ++ [msg]) (t ++ [.message msg]) := by
      intro hnone
      refine ⟨⟨earlier, heq⟩, ?_, hlen⟩
      rw [stdoutOf, List.flatMap_append, List.flatMap_singleton, hnone, List.append_nil]
      exact hpending
    rcases msg with _ | msg
    · exact wp_throw hlawful
    · cases msg with
      | success => exact wp_pure ⟨hlawful, msgs, earlier, hpending, hlen, heq⟩
      | failure => exact wp_throw hlawful
      | eof => exact wp_throw hlawful
      | close => exact wp_throw hlawful
      | data data =>
          refine wp_bind (wp_lift (fun pending' hok => ?_) fun e _ => hlawful)
          unfold appendPreReplyOutput at hok
          -- Stdout is held back up to the bound.
          by_cases hmore : MAX_PRE_REPLY_BYTES < pending.length + data.length
          · rw [if_pos hmore] at hok
            cases hok
          · rw [if_neg hmore] at hok
            cases hok
            refine wp_pure ⟨hlawful, msgs ++ [some (.data data)], ⟨earlier, heq⟩, ?_, ?_⟩
            · rw [stdoutOf, List.flatMap_append, List.flatMap_singleton, hpending]
              rfl
            · rw [List.length_append]
              omega
      | extendedData data ext => exact wp_pure ⟨hlawful, _, hskip rfl⟩
      | exitStatus status => exact wp_pure ⟨hlawful, _, hskip rfl⟩
      | other => exact wp_pure ⟨hlawful, _, hskip rfl⟩

/-- The subsystem is started on a channel of its own. -/
theorem wp_openSubsystem (hh : Lawful p config (before ++ [.authenticated])) :
    wp (openSubsystem p.packet config) (Ends (Lawful p config) (fun _ => Lawful p config)
      fun pending t => Lawful p config t ∧ ∃ msgs earlier, pending = stdoutOf msgs
        ∧ pending.length ≤ MAX_PRE_REPLY_BYTES
        ∧ t = (earlier ++ [.opened, .subsystem config.subsystem])
          ++ (msgs ++ [some ChannelMsg.success]).map .message) (before ++ [.authenticated]) := by
  refine wp_seq (wp_ask hh) (fun _ => id) (fun _ _ => id) ?_
  rintro _ t rfl
  have hopened := hh.snoc (e := .opened) List.getLast?_concat
  have hsubsystem := hopened.snoc (e := .subsystem config.subsystem) ⟨List.getLast?_concat, rfl⟩
  refine wp_bind (wp_record (wp_bind (wp_record ?_)))
  refine wp_seq (wp_ask hsubsystem) (fun _ => id) (fun _ _ => id) ?_
  rintro _ t rfl
  refine wp_bind (wp_guarded (wp_mono (wp_awaitSubsystem hsubsystem ⟨before ++ [.authenticated], ?_⟩)
    fun x t hx => ?_))
  · rw [List.append_assoc]
    rfl
  · cases x with
    | ok pending => exact wp_pure hx
    | err e => exact hx
    | cut n =>
        cases n with
        | zero => exact wp_throw hx
        | succ n => exact hx
    | suspended => exact hx

/-- A connection, from its beginning. -/
theorem wp_connect [DecidableEq κ] (hp : p.toSshPlatform.Lawful) : wp (connect p config)
    (Ends (Lawful p config) (fun _ => Lawful p config) fun pending t => Lawful p config t
      ∧ ∃ msgs earlier, pending = stdoutOf msgs ∧ pending.length ≤ MAX_PRE_REPLY_BYTES
        ∧ t = (earlier ++ [.opened, .subsystem config.subsystem])
          ++ (msgs ++ [some ChannelMsg.success]).map .message) [] := by
  unfold connect
  by_cases hvalid : validSshHost config.host = true
  · by_cases hzero : config.ackTimeout = 0
    · rw [hvalid, Bool.not_true, if_neg Bool.false_ne_true, if_pos hzero]
      exact wp_throw lawful_nil
    · rw [hvalid, Bool.not_true, if_neg Bool.false_ne_true, if_neg hzero]
      refine wp_bind (wp_record ?_)
      have hstart : Shaking p config [.connecting s!"{String.ofList config.host}:{config.port}"] := by
        refine ⟨lawful_nil.snoc ⟨rfl, hvalid, hzero⟩, fun hmem => ?_⟩
        cases List.mem_singleton.mp hmem
      refine wp_bind (wp_guarded (wp_mono (wp_handshake hp hstart) fun x t hx => ?_))
      cases x with
      | ok _ =>
          rcases hx with ⟨before, rfl, hbefore⟩
          refine wp_seq (wp_authenticate (hbefore.1.snoc hbefore.2)) (fun _ => id) (fun _ _ => id) ?_
          rintro admitted t ⟨rfl, ht⟩
          cases admitted with
          | true =>
              have hlast : (before ++ [SshEvent.connected,
                  .authenticating config.username config.auth]).getLast?
                  = some (.authenticating config.username config.auth) := by
                rw [List.getLast?_append]
                rfl
              exact wp_bind (wp_record (wp_openSubsystem (ht.snoc hlast)))
          | false => exact wp_throw ht
      | err e => exact hx.1
      | cut n =>
          cases n with
          | zero => exact wp_throw hx.1
          | succ n => exact hx.1
      | suspended => exact hx.1
  · rw [Bool.not_eq_true] at hvalid
    rw [hvalid, Bool.not_false, if_pos rfl]
    exact wp_throw lawful_nil

end Credentials

/-- What is promised of a connection: whom credentials were given to, that they
    were given once, and that nothing was read of a channel before. -/
structure Guarded (p : RusshPlatform κ) (config : SshConfig) (h : List (SshEvent κ)) : Prop where
  vouched : ∀ before username auth after, h = before ++ .authenticating username auth :: after →
    username = config.username ∧ auth = config.auth ∧ ∃ earlier key,
      before = earlier ++ [.checked key true, .connected] ∧ Vouched p config earlier key
  once : ∀ before username auth after, h = before ++ .authenticating username auth :: after →
    ∀ username' auth', .authenticating username' auth' ∉ before
  channel : ∀ before msg after, h = before ++ .message msg :: after →
    .authenticated ∈ before ∧ .authenticating config.username config.auth ∈ before

/-- The last event of what came before another. -/
theorem split_last {before : List (SshEvent κ)} (hlast : before.getLast? = some e) :
    ∃ earlier, before = earlier ++ [e] := ⟨_, (List.dropLast_append_getLast? e hlast).symm⟩

/-- Everything that is allowed is guarded, if the library heeds the handler. -/
theorem Lawful.guarded (hh : Lawful p config h) (hheeds : Heeds h) : Guarded p config h := by
  -- Credentials come right after a connection, and that right after a key that was accepted.
  have hgiven : ∀ before username auth after, h = before ++ .authenticating username auth :: after →
      username = config.username ∧ auth = config.auth ∧ ∃ earlier, before = earlier ++ [.connected]
        ∧ .connected ∉ earlier ∧ ∃ key, earlier.getLast? = some (.checked key true) := by
    intro before username auth after heq
    rcases hh before _ after heq with ⟨hlast, huser, hauth, _⟩
    rcases split_last hlast with ⟨earlier, rfl⟩
    have hsplit : h = earlier ++ .connected :: .authenticating username auth :: after := by
      rw [heq, List.append_assoc]
      rfl
    exact ⟨huser, hauth, earlier, rfl, hh earlier _ _ hsplit, hheeds earlier _ hsplit⟩
  refine ⟨fun before username auth after heq => ?_, fun before username auth after heq => ?_,
    fun before msg after heq => ?_⟩
  · -- They go to a server whose key is vouched for.
    rcases hgiven before username auth after heq with ⟨huser, hauth, earlier, rfl, _, key, hkey⟩
    rcases split_last hkey with ⟨first, rfl⟩
    refine ⟨huser, hauth, first, key, List.append_assoc .., ?_⟩
    have hsplit : h = first ++ .checked key true :: .connected
        :: .authenticating username auth :: after := by
      rw [heq, List.append_assoc, List.append_assoc]
      rfl
    exact (hh first _ _ hsplit).mp rfl
  · -- Another time would come right after another connection.
    intro username' auth' hmem
    rcases hgiven before username auth after heq with ⟨_, _, earlier, rfl, honce, _⟩
    rcases List.append_of_mem hmem with ⟨first, rest, hfirst⟩
    rcases split_of_snoc hfirst with ⟨hne, _⟩ | ⟨rest', _, rfl⟩
    · cases hne
    · have hsplit : h = first ++ .authenticating username' auth'
          :: (rest' ++ .connected :: .authenticating username auth :: after) := by
        rw [heq, List.append_assoc, List.append_assoc]
        rfl
      rcases hgiven first username' auth' _ hsplit with ⟨_, _, earlier, rfl, _⟩
      refine honce (List.mem_append_left _ (List.mem_append_right _ ?_))
      exact List.mem_singleton.mpr rfl
  · have hbefore : Lawful p config before := by
      rw [heq] at hh
      exact hh.initial
    have hsubsystem : .subsystem config.subsystem ∈ before := hh before _ after heq
    -- Back from the subsystem: the channel, the login, the credentials.
    rcases hbefore.of_mem hsubsystem with ⟨b1, hb1, hopened, _⟩
    rcases (hbefore.of_mem (hb1.subset (List.mem_of_getLast? hopened))) with ⟨b2, hb2, hlast2⟩
    have hauthenticated : .authenticated ∈ before := hb2.subset (List.mem_of_getLast? hlast2)
    rcases hbefore.of_mem hauthenticated with ⟨b3, hb3, hlast3⟩
    exact ⟨hauthenticated, hb3.subset (List.mem_of_getLast? hlast3)⟩

/-- However a connection ends and whatever is dropped: a host name that ssh(1)
    refuses and a zero timeout are refused, each with its own error and before
    anything is asked of the library; if the library heeds the handler, credentials are given at most
    once, right after a key that the policy lets pass; and what a connection
    returns is the stdout that came before the subsystem answered, in order and
    no more than the most that is taken. -/
theorem credentials_guarded [DecidableEq κ] (p : RusshPlatform κ) (hp : p.toSshPlatform.Lawful)
    (config : SshConfig) (script : List (Wake (SshAnswer κ))) (turns : Nat) :
    let run := connect p config ⟨[], script, turns⟩
    (validSshHost config.host = false → run = (.err invalidHost, ⟨[], script, turns⟩))
      ∧ (validSshHost config.host = true → config.ackTimeout = 0 →
        run = (.err zeroTimeout, ⟨[], script, turns⟩))
      ∧ (Heeds run.2.state → Guarded p config run.2.state)
      ∧ ∀ pending, run.1 = .ok pending → ∃ msgs earlier, pending = stdoutOf msgs
        ∧ pending.length ≤ MAX_PRE_REPLY_BYTES
        ∧ run.2.state = (earlier ++ [.opened, .subsystem config.subsystem])
          ++ (msgs ++ [some ChannelMsg.success]).map .message := by
  intro run
  have hrun : Ends (Lawful p config) (fun _ => Lawful p config) (fun pending t => Lawful p config t
      ∧ ∃ msgs earlier, pending = stdoutOf msgs ∧ pending.length ≤ MAX_PRE_REPLY_BYTES
        ∧ t = (earlier ++ [.opened, .subsystem config.subsystem])
          ++ (msgs ++ [some ChannelMsg.success]).map .message) run.1 run.2.state :=
    wp_connect hp script turns
  refine ⟨fun hinvalid => ?_, fun hvalid hzero => ?_, fun hheeds => ?_, fun pending hok => ?_⟩
  · have hrun : run = connect p config ⟨[], script, turns⟩ := rfl
    rw [hrun, connect, hinvalid, Bool.not_false, if_pos rfl]
    rfl
  · have hrun : run = connect p config ⟨[], script, turns⟩ := rfl
    rw [hrun, connect, hvalid, Bool.not_true, if_neg Bool.false_ne_true, if_pos hzero]
    rfl
  · have hlawful : Lawful p config run.2.state := by
      revert hrun
      cases run.1 with
      | ok pending => exact fun h => h.1
      | err e => exact id
      | cut n => exact id
      | suspended => exact id
    exact hlawful.guarded hheeds
  · rw [hok] at hrun
    exact hrun.2

section Welcome

/-- A password for a server that a file lists. -/
def listedConfig : SshConfig where
  host := "srv".toList
  port := 22
  username := "me".toList
  auth := .password "secret".toList
  subsystem := "powershell".toList
  ackTimeout := 60
  hostKeyPolicy := .knownHosts "known_hosts".toList

def listing : Text := "srv ssh-ed25519 AAAA\n".toList

def listedKey : Text × Text := ("ssh-ed25519".toList, "AAAA".toList)

/-- The server offers its key, lets the user in, and writes before it answers. -/
def welcome : List (Wake (SshAnswer (Text × Text))) :=
  [.offered (.publicKey listedKey), .file (.ok listing), .done, .admitted true, .done, .done,
    .message (some (.data [1, 2])), .message (some .success)].map .answer

/-- What happens then. -/
def welcomed : List (SshEvent (Text × Text)) :=
  [.connecting "srv:22", .read "known_hosts".toList (.ok listing),
    .checked (.publicKey listedKey) true, .connected,
    .authenticating "me".toList (.password "secret".toList), .authenticated, .opened,
    .subsystem "powershell".toList, .message (some (.data [1, 2])), .message (some .success)]

theorem listing_trusts :
    SshPlatform.basic.knownHostsVerdict listing "srv".toList 22 listedKey = .trusted := by
  have hentries : SshPlatform.basic.knownHosts (normalizeKnownHosts listing)
      = [.ok ⟨none, .patterns ["srv".toList], listedKey⟩] := by
    decide +kernel
  have hlookup : knownHostsLookupName SshPlatform.basic.toIpPlatform "srv".toList 22
      = "srv".toList := by
    decide +kernel
  -- The loop of the matcher is not one to evaluate.
  have hglob : globMatch "srv".toList "srv".toList = true :=
    (globLoop_eq_splits _ _).trans (by decide)
  have hmatches : SshPlatform.basic.hostMatchesEntry ⟨none, .patterns ["srv".toList], listedKey⟩
      "srv".toList = true := by
    change matchPatterns "srv".toList ["srv".toList] false = true
    rw [matchPatterns, show negation "srv".toList = (false, "srv".toList) from rfl]
    simp only [hglob]
    rfl
  rw [SshPlatform.knownHostsVerdict, hentries, hlookup, SshPlatform.judge, hmatches]
  rfl

theorem checkServerKey_listing (h : List (SshEvent (Text × Text)))
    (script : List (Wake (SshAnswer (Text × Text)))) (turns : Nat) :
    checkServerKey .basic listedConfig (.publicKey listedKey)
        ⟨h, .answer (.file (.ok listing)) :: script, turns⟩
      = (.ok true, ⟨h ++ [.read "known_hosts".toList (.ok listing)]
          ++ [.checked (.publicKey listedKey) true], script, turns⟩) := by
  have hverified : verifyAgainstKnownHosts SshPlatform.basic "known_hosts".toList (.ok listing)
      "srv".toList 22 listedKey = .ok () := by
    simp only [verifyAgainstKnownHosts, listing_trusts]
  -- Only the verdict on the file is not a matter of evaluation.
  have hread : verifyHostKey .basic listedConfig.hostKeyPolicy listedConfig.host listedConfig.port
      listedKey ⟨h, .answer (.file (.ok listing)) :: script, turns⟩
        = (.ok (.ok ()), ⟨h ++ [.read "known_hosts".toList (.ok listing)], script, turns⟩) :=
    congrArg (fun verified => (Exit.ok verified, _)) hverified
  simp only [checkServerKey, accepts, bind_apply, hread]
  rfl

theorem handshake_welcome :
    handshake .basic listedConfig ⟨[.connecting "srv:22"], welcome, 9⟩
      = (.ok (), ⟨welcomed.take 4, welcome.drop 3, 9⟩) := by
  have hoffered : (Async.await handshakeAnswer : SshProg (Text × Text) _)
      ⟨[.connecting "srv:22"], welcome, 9⟩
        = (.ok (.ok (.publicKey listedKey)), ⟨[.connecting "srv:22"],
          .answer (.file (.ok listing)) :: welcome.drop 2, 9⟩) := rfl
  simp only [handshake, Async.loop, turnsOf, bind_apply]
  rw [hoffered]
  simp only [bind_apply, checkServerKey_listing]
  rfl

theorem connect_welcome :
    let run := connect .basic listedConfig ⟨[], welcome, 9⟩
    run.1 = .ok [1, 2] ∧ run.2.state = welcomed := by
  have haddr : s!"{String.ofList listedConfig.host}:{listedConfig.port}" = "srv:22" := by
    decide +kernel
  have hstarted : record (SshEvent.connecting
      s!"{String.ofList listedConfig.host}:{listedConfig.port}") ⟨[], welcome, 9⟩
        = (.ok (), ⟨[.connecting "srv:22"], welcome, 9⟩) := by
    rw [haddr]
    rfl
  have hshaken : connect .basic listedConfig ⟨[], welcome, 9⟩ = (do
      if ← authenticate listedConfig then
        record .authenticated
        openSubsystem .basic listedConfig
      else Async.throw (.protocol "SSH authentication failed") : SshProg (Text × Text) Bytes)
        ⟨welcomed.take 4, welcome.drop 3, 9⟩ := by
    unfold connect
    rw [if_neg (by decide +kernel), if_neg (by decide)]
    simp only [bind_apply, hstarted, guarded, handshake_welcome]
    rfl
  rw [hshaken]
  decide +kernel

theorem heeds_welcomed : Heeds welcomed := by
  intro before after heq
  have hsplit : welcomed = welcomed.take 3 ++ .connected :: welcomed.drop 4 := rfl
  rw [hsplit] at heq
  rcases (List.append_cons_inj_of_notMem (by decide) (by decide)).mp heq with ⟨rfl, _⟩
  exact ⟨.publicKey listedKey, rfl⟩

/-- The password went to the server whose key was read. -/
theorem credentials_guarded_listed :
    let run := connect .basic listedConfig ⟨[], welcome, 9⟩
    SshEvent.authenticating "me".toList (.password "secret".toList) ∈ run.2.state
      ∧ Guarded .basic listedConfig run.2.state := by
  intro run
  have hhistory : run.2.state = welcomed := connect_welcome.2
  have hheeds : Heeds run.2.state := hhistory ▸ heeds_welcomed
  refine ⟨?_,
    (credentials_guarded .basic SshPlatform.basic_lawful listedConfig welcome 9).2.2.1 hheeds⟩
  rw [hhistory]
  decide

end Welcome

end Ssh

end Psrp
