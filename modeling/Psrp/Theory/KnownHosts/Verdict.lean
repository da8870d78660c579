import Psrp.Theory.KnownHosts.Canonical
import Psrp.Theory.KnownHosts.Glob
import Psrp.Theory.KnownHosts.Lines

/-!
# The Verdict on a Host Key

What a `known_hosts` file says about a key, as a statement about the set of its
entries. The loop over the entries stops at the first revocation, but whether
there is one does not depend on where it stands, and all the loop carries along
is whether some entry before trusts the key (`judge_spec`). So the verdict is a
matter of which entries are listed (`Listed`), and these are a matter of the
fields of each line (`listed_iff_fieldLines`).

## Main definitions

* `Listed`: The entries of a file.
* `Carries`: The entries that bear on a key.

## Theorems

* `hostMatchesPatterns_iff`: Whom a list of patterns matches.
* `judge_spec`: The loop over the entries.
* `known_hosts_decision`: The verdict.
-/

namespace Psrp

theorem negation_eq_true {raw : Text} : (negation raw).1 = true ↔ ∃ rest, raw = '!' :: rest := by
  unfold negation
  split
  · exact iff_of_true rfl ⟨_, rfl⟩
  · rename_i hraw
    exact iff_of_false Bool.false_ne_true fun ⟨rest, heq⟩ => hraw rest heq

theorem negation_eq_self {raw : Text} (h : (negation raw).1 = false) : (negation raw).2 = raw := by
  unfold negation at h ⊢
  split
  · cases h
  · rfl

/-- The loop over a list of patterns. -/
theorem matchPatterns_iff (lookup : Text) (patterns : List Text) (positive : Bool) :
    matchPatterns lookup patterns positive = true ↔
      (positive = true ∨ ∃ raw ∈ patterns, (negation raw).1 = false ∧
        globMatch (negation raw).2 lookup = true) ∧
      ∀ raw ∈ patterns, (negation raw).1 = true → globMatch (negation raw).2 lookup = false := by
  induction patterns generalizing positive with
  | nil =>
      rw [matchPatterns]
      constructor
      · exact fun h => ⟨.inl h, fun raw hmem => absurd hmem List.not_mem_nil⟩
      · rintro ⟨h | ⟨raw, hmem, -⟩, -⟩
        · exact h
        · exact absurd hmem List.not_mem_nil
  | cons raw rest ih =>
      have hstep : matchPatterns lookup (raw :: rest) positive
          = if !globMatch (negation raw).2 lookup then matchPatterns lookup rest positive
            else if (negation raw).1 then false
            else matchPatterns lookup rest true := rfl
      rw [hstep]
      simp only [List.exists_mem_cons_iff, List.forall_mem_cons]
      by_cases hmatch : globMatch (negation raw).2 lookup = true
      · by_cases hnegate : (negation raw).1 = true
        · -- A negated pattern decides on its own.
          rw [hmatch, hnegate]
          exact iff_of_false Bool.false_ne_true fun h => Bool.false_ne_true (h.2.1 rfl).symm
        · rw [Bool.not_eq_true] at hnegate
          simp only [hmatch, hnegate, Bool.not_true, Bool.false_eq_true, if_false, ih, true_or,
            or_true, true_and, false_implies, and_self]
      · rw [Bool.not_eq_true] at hmatch
        simp only [hmatch, Bool.not_false, if_true, ih, Bool.false_eq_true, and_false, false_or,
          implies_true, true_and]

/-- A list of patterns matches if some positive pattern does and no negated one. -/
theorem hostMatchesPatterns_iff (lookup : Text) (patterns : List Text) :
    hostMatchesPatterns patterns lookup = true ↔
      (∃ pattern ∈ patterns, pattern.head? ≠ some '!' ∧ globMatch pattern lookup = true) ∧
      ∀ pattern, '!' :: pattern ∈ patterns → globMatch pattern lookup = false := by
  rw [hostMatchesPatterns, matchPatterns_iff, or_iff_right Bool.false_ne_true]
  have hhead : ∀ raw : Text, raw.head? ≠ some '!' ↔ (negation raw).1 = false := by
    intro raw
    rw [← Bool.not_eq_true, negation_eq_true, ne_eq, List.head?_eq_some_iff]
  constructor
  · rintro ⟨⟨raw, hmem, hpositive, hmatch⟩, hnone⟩
    rw [negation_eq_self hpositive] at hmatch
    exact ⟨⟨raw, hmem, (hhead raw).mpr hpositive, hmatch⟩, fun pattern hmem => hnone _ hmem rfl⟩
  · rintro ⟨⟨raw, hmem, hpositive, hmatch⟩, hnone⟩
    rw [hhead] at hpositive
    refine ⟨⟨raw, hmem, hpositive, (negation_eq_self hpositive).symm ▸ hmatch⟩, ?_⟩
    intro raw hmem hnegated
    rcases negation_eq_true.mp hnegated with ⟨rest, rfl⟩
    exact hnone rest hmem

variable {κ : Type}

/-- The well-formed entries of a file. -/
def Listed (p : SshPlatform κ) (contents : Text) (entry : Entry κ) : Prop :=
  ∃ line ∈ lines contents, p.parseLine (normalizeLine line) = some (.ok entry)

/-- An entry with a marker matches the name looked up and carries the key. -/
def Carries (p : SshPlatform κ) (lookup : Text) (key : κ) (marker : Option Marker)
    (entry : Entry κ) : Prop :=
  entry.marker = marker ∧ p.hostMatchesEntry entry lookup = true ∧ entry.keyData = key

section Judge

variable [DecidableEq κ] (p : SshPlatform κ) (lookup : Text) (key : κ)

/-- The loop over the entries: it is left early for a revocation only, and on
    its way it notes whether the key is trusted. -/
theorem judge_spec (es : List (Except String (Entry κ))) (trusted : Bool) :
    (p.judge lookup key es trusted = .revoked ↔
      ∃ e, .ok e ∈ es ∧ Carries p lookup key (some .revoked) e) ∧
    (p.judge lookup key es trusted = .trusted ↔
      (¬ ∃ e, .ok e ∈ es ∧ Carries p lookup key (some .revoked) e) ∧
      (trusted = true ∨ ∃ e, .ok e ∈ es ∧ Carries p lookup key none e)) := by
  induction es generalizing trusted with
  | nil =>
      cases trusted
      · simp [SshPlatform.judge]
      · simp [SshPlatform.judge]
  | cons entry es ih =>
      -- What an entry carries is carried by it, or by the rest.
      have hcons : ∀ marker, (∃ e, .ok e ∈ entry :: es ∧ Carries p lookup key marker e) ↔
          (∃ e, entry = .ok e ∧ Carries p lookup key marker e) ∨
          ∃ e, .ok e ∈ es ∧ Carries p lookup key marker e := by
        intro marker
        simp only [List.mem_cons, or_and_right, exists_or, eq_comm]
      rw [hcons, hcons]
      rcases entry with message | e
      · simp only [SshPlatform.judge, ih, reduceCtorEq, false_and, exists_false, false_or,
          and_self]
      · simp only [Except.ok.injEq, exists_eq_left']
        -- An entry that carries nothing for this host and key is passed over.
        by_cases hskip : p.judge lookup key (.ok e :: es) trusted = p.judge lookup key es trusted ∧
            ¬ Carries p lookup key (some .revoked) e ∧ ¬ Carries p lookup key none e
        · simp only [hskip.1, ih, hskip.2.1, hskip.2.2, false_or, and_self]
        · -- An entry that is not skipped is for the host.
          have hmatch : p.hostMatchesEntry e lookup = true := by
            by_contra hmatch
            refine hskip ⟨?_, fun h => hmatch h.2.1, fun h => hmatch h.2.1⟩
            rw [SshPlatform.judge, Bool.eq_false_iff.mpr hmatch]
            rfl
          by_cases hkey : e.keyData = key
          · rcases hmarker : e.marker with _ | _ | _
            · -- The key is trusted from here on.
              have hcarries : Carries p lookup key none e := ⟨hmarker, hmatch, hkey⟩
              have hnot : ¬ Carries p lookup key (some .revoked) e := by
                rintro ⟨h, -⟩
                cases hmarker.symm.trans h
              have hjudge : p.judge lookup key (.ok e :: es) trusted = p.judge lookup key es true := by
                simp only [SshPlatform.judge, hmatch, hmarker, hkey, Bool.not_true,
                  Bool.false_eq_true, if_false, decide_true, Bool.or_true]
              simp only [hjudge, ih, hcarries, hnot, false_or, true_or, or_true, and_self]
            · -- A certificate authority says nothing of a plain key.
              refine absurd ⟨?_, ?_, ?_⟩ hskip
              · simp only [SshPlatform.judge, hmatch, hmarker, Bool.not_true, Bool.false_eq_true,
                  if_false]
              · rintro ⟨h, -⟩
                cases hmarker.symm.trans h
              · rintro ⟨h, -⟩
                cases hmarker.symm.trans h
            · have hcarries : Carries p lookup key (some .revoked) e := ⟨hmarker, hmatch, hkey⟩
              -- Revoked, whatever comes after.
              have hrevoked : p.judge lookup key (.ok e :: es) trusted = .revoked := by
                simp only [SshPlatform.judge, hmatch, hmarker, hkey, Bool.not_true,
                  Bool.false_eq_true, if_false, decide_true, if_true]
              simp only [hrevoked, hcarries, true_or, reduceCtorEq, not_true_eq_false, false_and,
                and_self]
          · -- With another key its marker does not matter.
            refine absurd ⟨?_, fun h => hkey h.2.2, fun h => hkey h.2.2⟩ hskip
            simp only [SshPlatform.judge, hmatch, hkey, Bool.not_true, Bool.false_eq_true, if_false,
              decide_false, Bool.or_false]
            rcases e.marker with _ | _ | _
            · rfl
            · rfl
            · rfl

end Judge

/-- A `\r` at the end of a line is no part of its fields. -/
theorem splitAsciiWhitespace_strip (line : Text) :
    splitAsciiWhitespace (stripCarriageReturn line) = splitAsciiWhitespace line := by
  unfold stripCarriageReturn
  split
  · rename_i hlast
    have hline : line = line.dropLast ++ ['\r'] :=
      (List.dropLast_append_getLast? '\r' hlast).symm
    conv_rhs => rw [hline]
    rw [splitAsciiWhitespace, splitAsciiWhitespace, List.splitOnP_append_cons _ _ rfl,
      List.filter_append]
    exact (List.append_nil _).symm
  · rfl

/-- What `str::lines` gives is what splitting gives, but for the end of a line
    that is no part of it and a last line that is empty. -/
theorem exists_lines_iff {Q : Text → Prop} (s : Text) (hnil : ¬ Q [])
    (hstrip : ∀ piece ∈ List.splitOn '\n' s, Q (stripCarriageReturn piece) ↔ Q piece) :
    (∃ line ∈ lines s, Q line) ↔ ∃ piece ∈ List.splitOn '\n' s, Q piece := by
  rcases List.eq_nil_or_concat' (List.splitOn '\n' s) with hsplit | ⟨init, last, hsplit⟩
  · exact absurd hsplit (List.splitOn_ne_nil '\n' s)
  · have hlines : lines s
        = init.map stripCarriageReturn ++ if last = [] then [] else [last] := by
      simp only [lines, hsplit, List.dropLast_concat, List.getLast?_concat, Option.getD_some]
    rw [hsplit] at hstrip ⊢
    rw [hlines]
    constructor
    · rintro ⟨line, hmem, hline⟩
      rcases List.mem_append.mp hmem with hmem | hmem
      · rcases List.mem_map.mp hmem with ⟨piece, hpiece, rfl⟩
        have hpiece' := List.mem_append_left [last] hpiece
        exact ⟨piece, hpiece', (hstrip piece hpiece').mp hline⟩
      · split at hmem
        · exact absurd hmem List.not_mem_nil
        · exact ⟨line, List.mem_append_right init hmem, hline⟩
    · rintro ⟨piece, hmem, hpiece⟩
      rcases List.mem_append.mp hmem with hmem' | hmem'
      · exact ⟨_, List.mem_append_left _ (List.mem_map_of_mem hmem'), (hstrip piece hmem).mpr hpiece⟩
      · refine ⟨piece, List.mem_append_right _ ?_, hpiece⟩
        cases List.mem_singleton.mp hmem'
        rw [if_neg]
        · exact hmem'
        · rintro rfl
          exact hnil hpiece

/-- The entries of a file are a matter of its fields. -/
theorem listed_iff_fieldLines {p : SshPlatform κ} (h : p.Lawful) (contents : Text)
    (entry : Entry κ) :
    Listed p contents entry ↔ ∃ fields ∈ fieldLines contents,
      p.parseLine (List.intercalate [' '] fields) = some (.ok entry) := by
  unfold Listed
  rw [exists_lines_iff]
  · simp only [fieldLines, List.mem_map, exists_exists_and_eq_and, normalizeLine]
  · rw [show normalizeLine [] = [] from rfl, h.parseLine_nil]
    exact fun heq => by cases heq
  · intro piece _
    rw [normalizeLine, splitAsciiWhitespace_strip]
    rfl

theorem not_of_mem_splitOnP {P : Char → Bool} {s piece : Text} {c : Char}
    (hpiece : piece ∈ s.splitOnP P) (hc : c ∈ piece) : ¬ P c = true := by
  induction s generalizing piece with
  | nil =>
      rw [List.splitOnP_nil, List.mem_singleton] at hpiece
      rw [hpiece] at hc
      exact absurd hc List.not_mem_nil
  | cons d s ih =>
      rw [List.splitOnP_cons_eq_if_modifyHead] at hpiece
      split at hpiece
      · rcases List.mem_cons.mp hpiece with rfl | hpiece
        · exact absurd hc List.not_mem_nil
        · exact ih hpiece hc
      · rename_i hd
        rcases hsplit : s.splitOnP P with _ | ⟨head, rest⟩
        · exact absurd hsplit (List.splitOnP_ne_nil P s)
        · rw [hsplit, List.modifyHead_cons] at hpiece
          rw [hsplit] at ih
          rcases List.mem_cons.mp hpiece with rfl | hpiece
          · rcases List.mem_cons.mp hc with rfl | hc
            · exact hd
            · exact ih List.mem_cons_self hc
          · exact ih (List.mem_cons_of_mem head hpiece) hc

/-- A normalised line is a line of its own. -/
theorem not_mem_normalizeLine (line : Text) : '\n' ∉ normalizeLine line ∧ '\r' ∉ normalizeLine line := by
  have hfield : ∀ c, isAsciiWhitespace c = true → c ≠ ' ' → c ∉ normalizeLine line := by
    intro c hc hspace hmem
    rcases mem_intercalate hmem with ⟨field, hfield, hmem⟩ | hmem
    · exact absurd hc (not_of_mem_splitOnP (List.mem_of_mem_filter hfield) hmem)
    · exact hspace (List.mem_singleton.mp hmem)
  exact ⟨hfield '\n' rfl (by decide), hfield '\r' rfl (by decide)⟩

/-- The entries that the loop goes through. -/
theorem mem_knownHosts_iff {p : SshPlatform κ} (h : p.Lawful) (contents : Text) (entry : Entry κ) :
    .ok entry ∈ p.knownHosts (normalizeKnownHosts contents) ↔ Listed p contents entry := by
  rw [SshPlatform.knownHosts, List.mem_filterMap, normalizeKnownHosts, exists_lines_iff]
  · rcases hlines : lines contents with _ | ⟨line, rest⟩
    · -- No line at all is one blank line to the crate.
      rw [Listed, hlines]
      refine iff_of_false ?_ fun ⟨line, hmem, _⟩ => List.not_mem_nil hmem
      rintro ⟨piece, hmem, hpiece⟩
      cases List.mem_singleton.mp hmem
      cases h.parseLine_nil.symm.trans hpiece
    · rw [List.splitOn_intercalate, Listed, hlines]
      · simp only [List.mem_map, exists_exists_and_eq_and]
      · intro line' hmem
        rcases List.mem_map.mp hmem with ⟨line, -, rfl⟩
        exact (not_mem_normalizeLine line).1
      · exact List.cons_ne_nil _ _
  · rw [h.parseLine_nil]
    exact fun heq => by cases heq
  · -- Between normalised lines there is no `\r`.
    intro piece hmem
    have hstrip : '\r' ∉ piece := by
      rcases hlines : lines contents with _ | ⟨line, rest⟩
      · rw [hlines] at hmem
        cases List.mem_singleton.mp hmem
        exact List.not_mem_nil
      · rw [List.splitOn_intercalate] at hmem
        · rcases List.mem_map.mp hmem with ⟨line, -, rfl⟩
          exact (not_mem_normalizeLine line).2
        · intro line' hmem
          rcases List.mem_map.mp hmem with ⟨line, -, rfl⟩
          exact (not_mem_normalizeLine line).1
        · rw [hlines]
          exact List.cons_ne_nil _ _
    rw [stripCarriageReturn, if_neg fun hlast => hstrip (List.mem_of_getLast? hlast)]

/-- Files with the same fields have the same entries. -/
theorem listed_congr {p : SshPlatform κ} (h : p.Lawful) {contents contents' : Text}
    (hfields : fieldLines contents = fieldLines contents') (entry : Entry κ) :
    Listed p contents entry ↔ Listed p contents' entry := by
  rw [listed_iff_fieldLines h, listed_iff_fieldLines h, hfields]

/-- The entries that speak for or against a key, for a host. -/
def Speaks (p : SshPlatform κ) (contents host : Text) (port : UInt16) (key : κ)
    (marker : Option Marker) : Prop :=
  ∃ entry, Listed p contents entry ∧
    Carries p (knownHostsLookupName p.toIpPlatform host port) key marker entry

variable [DecidableEq κ]

/-- The verdict, by the entries of the file. -/
theorem knownHostsVerdict_iff {p : SshPlatform κ} (h : p.Lawful) (contents host : Text)
    (port : UInt16) (key : κ) :
    (p.knownHostsVerdict contents host port key = .revoked ↔
      Speaks p contents host port key (some .revoked)) ∧
    (p.knownHostsVerdict contents host port key = .trusted ↔
      ¬ Speaks p contents host port key (some .revoked) ∧
      Speaks p contents host port key none) ∧
    (p.knownHostsVerdict contents host port key = .notTrusted ↔
      ¬ Speaks p contents host port key (some .revoked) ∧
      ¬ Speaks p contents host port key none) := by
  have hspec := judge_spec p (knownHostsLookupName p.toIpPlatform host port) key
    (p.knownHosts (normalizeKnownHosts contents)) false
  simp only [mem_knownHosts_iff h, Bool.false_eq_true, false_or] at hspec
  refine ⟨hspec.1, hspec.2, fun hverdict => ?_, fun ⟨hrevoked, htrusted⟩ => ?_⟩
  · have hrevoked : ¬ Speaks p contents host port key (some .revoked) := fun hspeaks => by
      cases (hspec.1.mpr hspeaks).symm.trans hverdict
    refine ⟨hrevoked, fun hspeaks => ?_⟩
    cases (hspec.2.mpr ⟨hrevoked, hspeaks⟩).symm.trans hverdict
  · rcases hverdict : p.knownHostsVerdict contents host port key with _ | _ | _
    · exact absurd (hspec.2.mp hverdict).2 htrusted
    · exact absurd (hspec.1.mp hverdict) hrevoked
    · rfl

/-- The verdict rests on what speaks for or against the key, and on nothing else. -/
theorem knownHostsVerdict_congr {p : SshPlatform κ} (h : p.Lawful)
    {contents contents' host host' : Text}
    {port port' : UInt16} {key : κ}
    (hspeaks : ∀ marker, Speaks p contents host port key marker ↔
      Speaks p contents' host' port' key marker) :
    p.knownHostsVerdict contents host port key = p.knownHostsVerdict contents' host' port' key := by
  have hv := knownHostsVerdict_iff h contents host port key
  have hv' := knownHostsVerdict_iff h contents' host' port' key
  rw [← hspeaks, ← hspeaks] at hv'
  rcases hcase : p.knownHostsVerdict contents host port key with _ | _ | _
  · exact (hv'.2.1.mpr (hv.2.1.mp hcase)).symm
  · exact (hv'.1.mpr (hv.1.mp hcase)).symm
  · exact (hv'.2.2.mpr (hv.2.2.mp hcase)).symm

/-- Line ends may be `\r\n`. -/
def crlf (s : Text) : Text := s.flatMap fun c => if c = '\n' then ['\r', '\n'] else [c]

theorem respaced_crlf (s : Text) : Respaced (crlf s) s := by
  induction s with
  | nil => exact .nil
  | cons c s ih =>
      rw [crlf, List.flatMap_cons]
      by_cases hc : c = '\n'
      · subst hc
        exact .lineEnd ih
      · rw [if_neg hc]
        exact .keep c ih

/-- What a `known_hosts` file says about a key: a revocation wins over trust,
    and neither depends on the order of the lines, on how fields are spaced and
    lines ended, or on the case of the host. -/
theorem known_hosts_decision (p : SshPlatform κ) (h : p.Lawful) :
    (∀ contents host port key,
      (p.knownHostsVerdict contents host port key = .revoked ↔
        Speaks p contents host port key (some .revoked)) ∧
      (p.knownHostsVerdict contents host port key = .trusted ↔
        ¬ Speaks p contents host port key (some .revoked) ∧
        Speaks p contents host port key none) ∧
      (p.knownHostsVerdict contents host port key = .notTrusted ↔
        ¬ Speaks p contents host port key (some .revoked) ∧
        ¬ Speaks p contents host port key none)) ∧
    (∀ contents contents' host port key, (lines contents).Perm (lines contents') →
      p.knownHostsVerdict contents host port key = p.knownHostsVerdict contents' host port key) ∧
    (∀ contents contents' host port key, Respaced contents contents' →
      p.knownHostsVerdict contents host port key = p.knownHostsVerdict contents' host port key) ∧
    (∀ contents host port key,
      p.knownHostsVerdict (crlf contents) host port key
        = p.knownHostsVerdict contents host port key) ∧
    (∀ contents (host host' : Text) port key, host.map Char.toLower = host'.map Char.toLower →
      p.knownHostsVerdict contents host port key = p.knownHostsVerdict contents host' port key) ∧
    (∀ contents contents' host port key, lines contents <+: lines contents' →
      p.knownHostsVerdict contents host port key = .revoked →
      p.knownHostsVerdict contents' host port key = .revoked) ∧
    (∀ patterns lookup, hostMatchesPatterns patterns lookup = true ↔
      (∃ pattern ∈ patterns, pattern.head? ≠ some '!' ∧ globMatch pattern lookup = true) ∧
      ∀ pattern, '!' :: pattern ∈ patterns → globMatch pattern lookup = false) := by
  refine ⟨knownHostsVerdict_iff h, ?_, ?_, ?_, ?_, ?_,
    fun patterns lookup => hostMatchesPatterns_iff lookup patterns⟩
  · intro contents contents' host port key hperm
    -- The verdict depends on what the file says, and the order of its lines says nothing,
    refine knownHostsVerdict_congr h fun marker => ?_
    simp only [Speaks, Listed, hperm.mem_iff]
  · intro contents contents' host port key hspaced
    -- nor does the space between fields,
    refine knownHostsVerdict_congr h fun marker => ?_
    simp only [Speaks, listed_congr h hspaced.fieldLines_eq]
  · intro contents host port key
    -- nor the ends of the lines.
    refine knownHostsVerdict_congr h fun marker => ?_
    simp only [Speaks, listed_congr h (respaced_crlf contents).fieldLines_eq]
  · intro contents host host' port key hcase
    have hlookup : knownHostsLookupName p.toIpPlatform host port
        = knownHostsLookupName p.toIpPlatform host' port := by
      rw [knownHostsLookupName, knownHostsLookupName, ← canonicalHost_toLower h.toLawful host,
        hcase, canonicalHost_toLower h.toLawful]
    rw [SshPlatform.knownHostsVerdict, SshPlatform.knownHostsVerdict, hlookup]
  · -- More lines only add to what is said.
    intro contents contents' host port key hprefix hrevoked
    rw [(knownHostsVerdict_iff h _ _ _ _).1] at hrevoked ⊢
    rcases hrevoked with ⟨entry, ⟨line, hmem, hline⟩, hcarries⟩
    exact ⟨entry, ⟨line, hprefix.subset hmem, hline⟩, hcarries⟩

theorem SshPlatform.basic_lawful : SshPlatform.basic.Lawful where
  toLawful := IpPlatform.basic_lawful
  parseLine_nil := rfl

/-- A revoked address is revoked under its short form, whatever trusts its net. -/
theorem known_hosts_decision_short_form :
    SshPlatform.basic.knownHostsVerdict
      "127.* ssh-ed25519 AAAA\n@revoked  127.0.0.1\tssh-ed25519 AAAA\r\n".toList "127.1".toList 22
      ("ssh-ed25519".toList, "AAAA".toList) = .revoked := by
  have hcanonical : canonicalHost .basic "127.1".toList = "127.0.0.1".toList :=
    @canonicalHost_spells .basic IpPlatform.basic_lawful _ 0x7F000001 (.inr (by decide))
  refine (((known_hosts_decision .basic SshPlatform.basic_lawful).1 _ _ _ _).1).mpr
    ⟨⟨some .revoked, .patterns ["127.0.0.1".toList], ("ssh-ed25519".toList, "AAAA".toList)⟩,
      ⟨"@revoked  127.0.0.1\tssh-ed25519 AAAA".toList, by decide, rfl⟩, rfl, ?_, rfl⟩
  rw [knownHostsLookupName, if_pos rfl]
  change hostMatchesPatterns _ (canonicalHost .basic _) = true
  rw [hcanonical, hostMatchesPatterns_iff]
  refine ⟨⟨_, List.mem_singleton_self _, by decide, ?_⟩, fun pattern hmem => ?_⟩
  · exact (globLoop_eq_splits _ _).trans (by decide)
  · cases List.mem_singleton.mp hmem

end Psrp
