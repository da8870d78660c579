import Psrp.Lib.Bytes
import Psrp.Lib.Glob

/-!
# Wildcard Patterns of Host Names

`glob_match_bytes` keeps one position to go back to: the pattern just past the
last `*`, and what of the target was left there. A turn of its loop either
leaves the loop with an answer or goes on from another state, and
`turn_decreases` is why it goes on only finitely often: a `*` is used up, or
else the last `*` swallows a byte, or else the pattern gets shorter.

## Main definitions

* `toAsciiLowercase`, `eqIgnoreAsciiCase`: The ASCII case of a byte.
* `GlobState`, `GlobState.turn`: A turn of the loop.
* `globMatchBytes`, `globMatch`: Whether a pattern matches.

## Theorems

* `GlobState.turn_cases`: What a turn does.
* `GlobState.turn_decreases`: The loop comes to an end.
-/

namespace Psrp

/-- `u8::to_ascii_lowercase`. -/
def toAsciiLowercase (b : UInt8) : UInt8 := if 0x41 ≤ b ∧ b ≤ 0x5A then b + 0x20 else b

/-- `u8::eq_ignore_ascii_case`. -/
def eqIgnoreAsciiCase (a b : UInt8) : Bool := toAsciiLowercase a == toAsciiLowercase b

/-- The variables of the loop of `glob_match_bytes`. -/
structure GlobState where
  pat : Bytes
  tgt : Bytes
  /-- The pattern just past the last `*` seen, and the target from where that
      star started consuming. -/
  star : Option (Bytes × Bytes)
  deriving DecidableEq, Repr

namespace GlobState

/-- The last `*` swallows one more byte of the target. -/
def swallow (star : Option (Bytes × Bytes)) : Bool ⊕ GlobState :=
  match star with
  | some (resume, _ :: after) => .inr { pat := resume, tgt := after, star := some (resume, after) }
  | _ => .inl false

/-- One turn of the loop: the answer it is left with, or the next state. -/
def turn (s : GlobState) : Bool ⊕ GlobState :=
  match s.tgt, s.pat with
  | [], pat => .inl (pat.all (· == 0x2A))
  | _ :: _, [] => swallow s.star
  | byte :: tgtRest, c :: rest =>
    if c = 0x2A then .inr { s with pat := rest, star := some (rest, byte :: tgtRest) }
    else if c = 0x3F then .inr { s with pat := rest, tgt := tgtRest }
    else if eqIgnoreAsciiCase c byte then .inr { s with pat := rest, tgt := tgtRest }
    -- Mismatch: let the last `*` swallow one more target byte.
    else swallow s.star

/-- The pattern to go back to. -/
def resume (s : GlobState) : Bytes := (s.star.map Prod.fst).getD []

/-- The target to go back to. -/
def after (s : GlobState) : Bytes := (s.star.map Prod.snd).getD []

/-- How many `*` are still to come, here or where the loop may go back to. -/
def starsLeft (s : GlobState) : Nat := max (s.pat.count 0x2A) (s.resume.count 0x2A)

/-- What every turn makes smaller, read from the left. -/
def measure (s : GlobState) : Nat × Nat × Nat := (s.starsLeft, s.after.length, s.pat.length)

variable {s s' : GlobState}

theorem swallow_eq {star : Option (Bytes × Bytes)} (h : swallow star = .inr s') :
    ∃ resume b after, star = some (resume, b :: after) ∧
      s' = { pat := resume, tgt := after, star := some (resume, after) } := by
  unfold swallow at h
  split at h
  · rename_i resume b after
    cases h
    exact ⟨resume, b, after, rfl, rfl⟩
  · cases h

/-- A byte of the target that the head of the pattern does not stand for. -/
def Mismatch (s : GlobState) : Prop :=
  ∃ byte tgtRest, s.tgt = byte :: tgtRest ∧
    ∀ c rest, s.pat = c :: rest → c ≠ 0x2A ∧ c ≠ 0x3F ∧ eqIgnoreAsciiCase c byte = false

/-- What a turn does. -/
theorem turn_cases (s : GlobState) :
    (s.tgt = [] ∧ s.turn = .inl (s.pat.all (· == 0x2A))) ∨
    (∃ rest, s.pat = 0x2A :: rest ∧
      s.turn = .inr { s with pat := rest, star := some (rest, s.tgt) }) ∨
    (∃ c rest byte tgtRest, s.pat = c :: rest ∧ s.tgt = byte :: tgtRest ∧ c ≠ 0x2A ∧
      (c = 0x3F ∨ eqIgnoreAsciiCase c byte = true) ∧
      s.turn = .inr { s with pat := rest, tgt := tgtRest }) ∨
    (s.Mismatch ∧ s.turn = swallow s.star) := by
  rcases s with ⟨pat, tgt, star⟩
  rcases tgt with _ | ⟨byte, tgtRest⟩
  · exact .inl ⟨rfl, rfl⟩
  · refine .inr ?_
    rcases pat with _ | ⟨c, rest⟩
    · exact .inr (.inr ⟨⟨byte, tgtRest, rfl, fun c rest heq => absurd heq.symm
        (List.cons_ne_nil c rest)⟩, rfl⟩)
    · by_cases hstar : c = 0x2A
      · exact .inl ⟨rest, hstar ▸ rfl, if_pos hstar⟩
      · refine .inr ?_
        have hturn : turn ⟨c :: rest, byte :: tgtRest, star⟩
            = if c = 0x3F then .inr ⟨rest, tgtRest, star⟩
              else if eqIgnoreAsciiCase c byte then .inr ⟨rest, tgtRest, star⟩
              else swallow star := if_neg hstar
        by_cases hany : c = 0x3F
        · rw [if_pos hany] at hturn
          exact .inl ⟨c, rest, byte, tgtRest, rfl, rfl, hstar, .inl hany, hturn⟩
        · rw [if_neg hany] at hturn
          by_cases heq : eqIgnoreAsciiCase c byte = true
          · rw [if_pos heq] at hturn
            exact .inl ⟨c, rest, byte, tgtRest, rfl, rfl, hstar, .inr heq, hturn⟩
          · rw [if_neg heq] at hturn
            refine .inr ⟨⟨byte, tgtRest, rfl, ?_⟩, hturn⟩
            rintro d ds ⟨rfl, rfl⟩
            exact ⟨hstar, hany, Bool.eq_false_iff.mpr heq⟩

/-- Every turn that goes on uses a `*` up, or has the last one swallow a byte,
    or leaves less of the pattern. -/
theorem turn_decreases (h : s.turn = .inr s') :
    Prod.Lex (· < ·) (Prod.Lex (· < ·) (· < ·)) s'.measure s.measure := by
  have hle : s.pat.count 0x2A ≤ s.starsLeft := Nat.le_max_left _ _
  rcases s.turn_cases with ⟨-, hturn⟩ | ⟨rest, hpat, hturn⟩
    | ⟨c, rest, byte, tgtRest, hpat, -, hc, -, hturn⟩ | ⟨-, hturn⟩
  · cases hturn.symm.trans h
  · cases hturn.symm.trans h
    -- The `*` is behind in both patterns.
    rw [hpat, List.count_cons_self] at hle
    refine Prod.Lex.left _ _ ?_
    simp only [starsLeft, resume, Option.map_some, Option.getD_some, Nat.max_self] at hle ⊢
    omega
  · cases hturn.symm.trans h
    have hcount : s.pat.count 0x2A = rest.count 0x2A := by
      rw [hpat, List.count_cons_of_ne hc]
    have heq : { s with pat := rest, tgt := tgtRest }.starsLeft = s.starsLeft := by
      simp only [starsLeft, resume, hcount]
    rw [measure, measure, heq]
    refine Prod.Lex.right _ (Prod.Lex.right _ ?_)
    rw [hpat]
    exact Nat.lt_succ_self _
  · rcases swallow_eq (hturn.symm.trans h) with ⟨resume, b, after, hstar, rfl⟩
    have hresume : resume.count 0x2A ≤ s.starsLeft := by
      refine Nat.le_trans (Nat.le_of_eq ?_) (Nat.le_max_right _ _)
      rw [GlobState.resume, hstar]
      rfl
    have hleft : starsLeft { pat := resume, tgt := after, star := some (resume, after) }
        = resume.count 0x2A := Nat.max_self _
    rw [measure, measure, hleft]
    have hafter : s.after = b :: after := by rw [GlobState.after, hstar]; rfl
    rcases Nat.lt_or_eq_of_le hresume with hlt | heq
    · exact Prod.Lex.left _ _ hlt
    · rw [heq, hafter]
      exact Prod.Lex.right _ (Prod.Lex.left _ _ (Nat.lt_succ_self _))

end GlobState

/-- The loop of `glob_match_bytes`, from any state. -/
def globLoop (s : GlobState) : Bool :=
  match _h : s.turn with
  | .inl answer => answer
  | .inr s' => globLoop s'
termination_by s.measure
decreasing_by exact GlobState.turn_decreases _h

/-- `glob_match_bytes`: iterative wildcard match with a single backtrack point. -/
def globMatchBytes (pattern target : Bytes) : Bool :=
  globLoop { pat := pattern, tgt := target, star := none }

/-- `glob_match`. -/
def globMatch (pattern target : Text) : Bool := globMatchBytes pattern.toUtf8 target.toUtf8

end Psrp
