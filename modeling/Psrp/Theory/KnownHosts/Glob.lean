import Psrp.Core.Glob

/-!
# The Wildcard Matcher and the Language of Its Pattern

The matcher of host names goes through the target once and keeps a single
position to go back to. Between two turns of its loop, the part of the pattern
read since the last `*` holds no further `*`, and it fits what of the target
was read since (`Reading`). So the loop is left with `true` exactly if some end
of the target from where that star started is matched by what follows the star
(`Accepts`), and every turn keeps both.

## Main definitions

* `symbol`, `symbols`: What the bytes of a pattern stand for.
* `GlobState.Reading`: The invariant of the loop.
* `GlobState.Accepts`: What the loop decides.

## Theorems

* `GlobState.turn_keeps`, `GlobState.turn_answers`: One turn.
* `globLoop_iff`: The loop.
* `globMatchBytes_iff`: The matcher decides the language of its pattern.
-/

namespace Psrp

open Glob

/-- What a byte of a pattern stands for. -/
def symbol (c : UInt8) : Symbol UInt8 :=
  if c = 0x2A then .many
  else if c = 0x3F then .one fun _ => true
  else .one (eqIgnoreAsciiCase c)

/-- What the bytes of a pattern stand for. -/
def symbols (pattern : Bytes) : List (Symbol UInt8) := pattern.map symbol

namespace GlobState

/-- Since the last `*`, letters of the pattern were read, and what of the
    target they fit. -/
def Reading (s : GlobState) : Prop :=
  ∀ resume from', s.star = some (resume, from') →
    ∃ letters u, from' = u ++ s.tgt ∧ symbols resume = letters.map .one ++ symbols s.pat ∧
      Fits letters u

/-- What the loop decides: with no `*` read, whether the pattern matches the
    target; after one, whether what follows the star matches an end of the
    target from where it started. -/
def Accepts (s : GlobState) : Prop :=
  match s.star with
  | none => s.tgt ∈ language (symbols s.pat)
  | some (resume, from') => ∃ x, x <:+ from' ∧ x ∈ language (symbols resume)

variable {s s' : GlobState}

theorem accepts_none (h : s.star = none) : s.Accepts ↔ s.tgt ∈ language (symbols s.pat) := by
  rw [Accepts, h]

theorem accepts_some {resume from' : Bytes} (h : s.star = some (resume, from')) :
    s.Accepts ↔ ∃ x, x <:+ from' ∧ x ∈ language (symbols resume) := by
  rw [Accepts, h]

/-- The byte of a pattern that stands for one byte. -/
theorem symbol_one {c : UInt8} (h : c ≠ 0x2A) :
    ∃ accepts, symbol c = .one accepts ∧
      ∀ b, accepts b = true ↔ c = 0x3F ∨ eqIgnoreAsciiCase c b = true := by
  unfold symbol
  rw [if_neg h]
  by_cases hany : c = 0x3F
  · exact ⟨_, if_pos hany, fun b => ⟨fun _ => .inl hany, fun _ => rfl⟩⟩
  · exact ⟨_, if_neg hany, fun b => ⟨.inr, fun h => h.resolve_left hany⟩⟩

theorem all_star_iff {pat : Bytes} :
    pat.all (· == 0x2A) = true ↔ ∀ x ∈ symbols pat, x = .many := by
  rw [List.all_eq_true, symbols, List.forall_mem_map]
  refine forall₂_congr fun c _ => ?_
  rw [beq_iff_eq]
  constructor
  · rintro rfl
    rfl
  · intro h
    by_contra hc
    rcases symbol_one hc with ⟨accepts, hsymbol, -⟩
    cases hsymbol.symm.trans h

/-- A byte that the pattern does not stand for cannot be matched here. -/
theorem not_mem_of_mismatch (h : s.Mismatch) : s.tgt ∉ language (symbols s.pat) := by
  rcases h with ⟨byte, tgtRest, htgt, hpat⟩
  rcases hc : s.pat with _ | ⟨c, rest⟩
  · intro hmem
    rw [htgt] at hmem
    exact List.cons_ne_nil _ _ (mem_nil.mp hmem)
  · rcases hpat c rest hc with ⟨hstar, hany, heq⟩
    rcases symbol_one hstar with ⟨accepts, hsymbol, haccepts⟩
    intro hmem
    rw [htgt, symbols, List.map_cons, hsymbol, mem_one_cons, haccepts] at hmem
    rcases hmem.1 with h | h
    · exact hany h
    · exact Bool.false_ne_true (heq.symm.trans h)

/-- A turn that goes on keeps the invariant and what is decided. -/
theorem turn_keeps (hreading : s.Reading) (h : s.turn = .inr s') :
    s'.Reading ∧ (s'.Accepts ↔ s.Accepts) := by
  rcases s.turn_cases with ⟨-, hturn⟩ | ⟨rest, hpat, hturn⟩
    | ⟨c, rest, byte, tgtRest, hpat, htgt, hc, hone, hturn⟩ | ⟨hmismatch, hturn⟩
  · cases hturn.symm.trans h
  · cases hturn.symm.trans h
    have hsymbols : symbols s.pat = .many :: symbols rest := by rw [hpat]; rfl
    constructor
    · -- Nothing was read since this star.
      intro resume from' hstar
      cases hstar
      exact ⟨[], [], rfl, rfl, .nil⟩
    · rcases hstar : s.star with _ | ⟨resume, from'⟩
      · rw [accepts_none hstar, hsymbols, mem_many]
        exact accepts_some rfl
      · -- The star before this one is forgotten.
        rcases hreading resume from' hstar with ⟨letters, u, rfl, hresume, hfits⟩
        rw [accepts_some hstar, hresume, hsymbols, mem_letters_many hfits]
        exact accepts_some rfl
  · cases hturn.symm.trans h
    rcases symbol_one hc with ⟨accepts, hsymbol, haccepts⟩
    have hsymbols : symbols s.pat = .one accepts :: symbols rest := by
      rw [hpat, symbols, List.map_cons, hsymbol]
      rfl
    -- One more letter is read since the star, and the byte it accepts.
    have hbyte : accepts byte = true := (haccepts byte).mpr hone
    constructor
    · intro resume from' hstar
      rcases hreading resume from' hstar with ⟨letters, u, rfl, hresume, hfits⟩
      refine ⟨letters ++ [accepts], u ++ [byte], ?_, ?_, hfits.snoc hbyte⟩
      · rw [htgt, List.append_assoc]
        rfl
      · rw [hresume, hsymbols, List.map_append, List.append_assoc]
        rfl
    · rcases hstar : s.star with _ | ⟨resume, from'⟩
      · rw [accepts_none hstar, hsymbols, htgt, mem_one_cons]
        exact (and_iff_right hbyte).symm
      · rw [accepts_some hstar]
        rfl
  · rcases swallow_eq (hturn.symm.trans h) with ⟨resume, b, after, hstar, rfl⟩
    constructor
    · intro resume' from' hstar'
      cases hstar'
      exact ⟨[], [], rfl, rfl, .nil⟩
    · -- The whole of the target from the star on is not matched.
      rcases hreading resume (b :: after) hstar with ⟨letters, u, hu, hresume, hfits⟩
      have hnot : b :: after ∉ language (symbols resume) := by
        rw [hu, hresume, mem_letters_append hfits]
        exact not_mem_of_mismatch hmismatch
      rw [accepts_some hstar]
      refine (accepts_some rfl).trans ⟨?_, ?_⟩
      · rintro ⟨x, hx, hmem⟩
        exact ⟨x, hx.trans (List.suffix_cons b after), hmem⟩
      · rintro ⟨x, hx, hmem⟩
        rcases List.suffix_cons_iff.mp hx with rfl | hx
        · exact absurd hmem hnot
        · exact ⟨x, hx, hmem⟩

/-- A turn that leaves the loop has its answer. -/
theorem turn_answers {answer : Bool} (hreading : s.Reading) (h : s.turn = .inl answer) :
    answer = true ↔ s.Accepts := by
  rcases s.turn_cases with ⟨htgt, hturn⟩ | ⟨rest, -, hturn⟩
    | ⟨c, rest, byte, tgtRest, -, -, -, -, hturn⟩ | ⟨hmismatch, hturn⟩
  · -- The target is exhausted.
    cases hturn.symm.trans h
    rw [all_star_iff, ← nil_mem]
    rcases hstar : s.star with _ | ⟨resume, from'⟩
    · rw [accepts_none hstar, htgt]
    · rcases hreading resume from' hstar with ⟨letters, u, rfl, hresume, hfits⟩
      rw [accepts_some hstar, hresume, htgt, List.append_nil, mem_letters_suffix hfits]
  · cases hturn.symm.trans h
  · cases hturn.symm.trans h
  · rw [hturn] at h
    rcases hstar : s.star with _ | ⟨resume, _ | ⟨b, after⟩⟩
    · rw [hstar] at h
      cases h
      rw [accepts_none hstar]
      exact iff_of_false Bool.false_ne_true (not_mem_of_mismatch hmismatch)
    · -- The target would be an end of nothing.
      rcases hreading resume [] hstar with ⟨letters, u, hu, -, -⟩
      rcases hmismatch with ⟨byte, tgtRest, htgt, -⟩
      rw [htgt] at hu
      exact absurd hu.symm (List.append_ne_nil_of_right_ne_nil u (List.cons_ne_nil byte tgtRest))
    · rw [hstar] at h
      cases h

end GlobState

/-- The loop decides what its invariant says, wherever it starts. -/
theorem globLoop_iff (s : GlobState) (hreading : s.Reading) :
    globLoop s = true ↔ s.Accepts := by
  induction s using globLoop.induct with
  | case1 s answer h =>
      rw [globLoop]
      split
      · rename_i h'
        cases h.symm.trans h'
        exact GlobState.turn_answers hreading h
      · rename_i h'
        cases h.symm.trans h'
  | case2 s s' h ih =>
      rcases GlobState.turn_keeps hreading h with ⟨hreading', haccepts⟩
      rw [globLoop]
      split
      · rename_i h'
        cases h.symm.trans h'
      · rename_i h'
        cases h.symm.trans h'
        exact (ih hreading').trans haccepts

/-- The states of the loop follow each other only finitely often. -/
theorem exists_turn_answers (run : Nat → GlobState) : ∃ n, (run n).turn ≠ .inr (run (n + 1)) := by
  have hwf : IsWellFounded (Nat × Nat × Nat) (Prod.Lex (· < ·) (Prod.Lex (· < ·) (· < ·))) :=
    ⟨WellFounded.prod_lex Nat.lt_wfRel.wf (WellFounded.prod_lex Nat.lt_wfRel.wf Nat.lt_wfRel.wf)⟩
  rcases WellFounded.not_rel_apply_succ (h := hwf) (fun n => (run n).measure) with ⟨n, hn⟩
  exact ⟨n, fun hturn => hn (GlobState.turn_decreases hturn)⟩

/-- From the start, the loop decides the language of the pattern. -/
theorem globLoop_start (pattern target : Bytes) :
    globLoop { pat := pattern, tgt := target, star := none } = true
      ↔ target ∈ language (symbols pattern) :=
  globLoop_iff _ fun _ _ hstar => by cases hstar

/-- The loop answers what trying every split answers. -/
theorem globLoop_eq_splits (pattern target : Bytes) :
    globLoop { pat := pattern, tgt := target, star := none }
      = splits (symbols pattern) target :=
  Bool.eq_iff_iff.mpr ((globLoop_start pattern target).trans (splits_iff _ _).symm)

/-- The matcher decides the language of its pattern, as trying every split at
    every `*` does, and its loop ends. -/
theorem globMatchBytes_iff (pattern target : Bytes) :
    (globMatchBytes pattern target = true ↔ target ∈ language (symbols pattern)) ∧
    globMatchBytes pattern target = splits (symbols pattern) target ∧
    ∀ run : Nat → GlobState, ∃ n, (run n).turn ≠ .inr (run (n + 1)) :=
  ⟨globLoop_start pattern target, globLoop_eq_splits pattern target, exists_turn_answers⟩

end Psrp
