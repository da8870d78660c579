import Psrp.Theory.Steps

/-!
# The Machine Is the Decoder

The stack machine and the recursive decoder give the same result on every
document.

A frame stands for what is left to do in an activation of `parseElement`, and
`resume` writes that down as a program of the decoder: the loop the frame is
in, from where it is, and then whatever follows. A whole stack is the
innermost of these programs and then the others in turn (`denote`). One step
of the machine is one turn of the innermost loop (`run_resume_step`), so the
program a configuration stands for does on the rest of the events what the
machine does (`run_denote`). Nothing here is an induction over the call
structure: the recursion of the decoder is unfolded one call at a time, where
the machine pushes a frame.

## Main definitions

* `resume`: What is left to do in an activation.
* `Config.denote`: What is left to do in a stack of them.
* `decode`: The machine on a document.

## Theorems

* `run_parseElement`: An element is read by resuming the frame it opens.
* `run_resume_step`: One turn of the innermost loop.
* `run_denote`: The machine runs what its configuration stands for.
* `parseClixml_eq_decode`: The decoder is the machine.
-/

namespace Psrp

namespace Machine

open Xml (Attr Event)
open Pull (Turn run update lift run_bind run_pure run_throw run_lift run_update run_loop_cons)

/-- What is left to do in the body of an object. -/
def resumeMode (el : String → List Attr → Decode (Option PsValue)) (ctx : ObjCtx) :
    Mode → Decode (PsObject × Option PsValue)
  | .body => objLoop el (ctx.obj, ctx.embedded)
  | .members closing => do
    let obj ← parseMemberSet el ctx.obj closing
    objLoop el (obj, ctx.embedded)
  | .list closing items => do
    let items ← listLoop el closing items
    objLoop el (ctx.obj, some (.list items))
  | .dict entries => do
    let entries ← dictLoop el entries
    objLoop el (ctx.obj, some (.dict entries))
  | .entry entries entry => do
    let entry ← entryLoop el entry
    let entries ← dictLoop el (entries ++ [entry])
    objLoop el (ctx.obj, some (.dict entries))
  | .typeNames rid names => do
    let names ← typeNamesLoop names
    update fun s => .ok ((), rememberTypeNames rid names s)
    objLoop el ({ ctx.obj with typeNames := names }, ctx.embedded)
  | .typeName rid names text => do
    let text ← textLoop "T" text
    let names ← typeNamesLoop (names ++ [decodePwshEscapes text])
    update fun s => .ok ((), rememberTypeNames rid names s)
    objLoop el ({ ctx.obj with typeNames := names }, ctx.embedded)
  | .skipRef rid level => do
    skipLoop level
    let obj ← update fun s => .ok (sharedTypeNames rid s ctx.obj, s)
    objLoop el (obj, ctx.embedded)

/-- What is left to do once the body of an object is read. -/
def closeObj (refId : Option Text) (body : PsObject × Option PsValue) :
    Decode (Option PsValue) := do
  let value := .object (exposeValue body.2 body.1)
  update fun s => (keepReferenced refId value s).map fun s => ((), s)
  return some value

/-- What is left to do in an activation. -/
def resume (el : String → List Attr → Decode (Option PsValue)) :
    Activity → Decode (Option PsValue)
  | .leaf tag parse text => do
    let out ← textLoop tag text
    return some (← lift (parse (decodePwshEscapes out)))
  | .object ctx mode => resumeMode el ctx mode >>= closeObj ctx.refId
  | .skip level value => do
    skipLoop level
    return value

theorem run_closeObj (refId : Option Text) (body : PsObject × Option PsValue)
    (c : Cursor Event DecoderState) :
    run (closeObj refId body) c
      = (keepReferenced refId (.object (exposeValue body.2 body.1)) c.state).map fun s =>
          (some (.object (exposeValue body.2 body.1)), { c with state := s }) := by
  simp only [closeObj, run_bind, run_update, run_pure]
  cases keepReferenced refId (.object (exposeValue body.2 body.1)) c.state <;> rfl

theorem run_leaving {α : Type} (m : Decode α) (c : Cursor Event DecoderState) :
    run (leaving m) c = match run m c with
      | .ok (a, c') => .ok (a, { c' with state := { c'.state with depth := c'.state.depth - 1 } })
      | .error e => .error e := by
  simp only [run, leaving]
  cases m c <;> rfl

/-- An element is read by resuming the frame it opens, as long as the nesting
    counter and the nesting still allowed add up. -/
theorem run_parseElement (p : Platform) (k : Nat) (name : Text) (tag : String)
    (attrs : List Attr) (es : List Event) (ft : Option String) (s : DecoderState)
    (hk : s.depth + k = MAX_NESTING_DEPTH) :
    run (parseElement p k tag attrs) ⟨es, ft, s⟩ = match openElement p name tag attrs s with
      | .ok (f, s') => run (leaving (resume (parseElement p (k - 1)) f.activity)) ⟨es, ft, s'⟩
      | .error x => .error x := by
  rcases k with _ | k
  · rw [openElement, if_pos (show MAX_NESTING_DEPTH ≤ s.depth by omega)]
    rfl
  · have hlt : ¬ MAX_NESTING_DEPTH ≤ s.depth := by omega
    simp only [parseElement, openElement, run_bind, run_update, if_neg hlt, Except.map,
      run_leaving, Nat.add_sub_cancel]
    rw [parseElementInner]
    cases leafParser p tag with
    | some parse =>
        simp only [resume, readText, run_bind, run_pure, run_lift]
        cases run (textLoop tag []) ⟨es, ft, { s with depth := s.depth + 1 }⟩ <;> rfl
    | none =>
        simp only []
        split_ifs
        · simp only [run_bind, run_lift]
          cases refIdAttr attrs with
          | error x => rfl
          | ok refId =>
              simp only [Except.map, resume, resumeMode, parseObjBody, run_bind, run_pure]
              cases run (objLoop (parseElement p k) (PsObject.new, none))
                ⟨es, ft, { s with depth := s.depth + 1 }⟩ with
              | error x => rfl
              | ok r =>
                  simp only [run_closeObj, run_update]
                  cases keepReferenced refId (.object (exposeValue r.1.2 r.1.1)) r.2.state <;> rfl
        · simp only [run_bind, run_update]
          cases resolveRef attrs 0 { s with depth := s.depth + 1 } with
          | error x => rfl
          | ok r => simp only [Except.map, resume, skipToEnd, run_bind]
        · rfl

/-- What follows the step of a frame, as a run of the decoder. -/
def after (p : Platform) (k : Nat) (a : Activity) (es : List Event) (ft : Option String) :
    Outcome → Except PsrpError (Option PsValue × Cursor Event DecoderState)
  | .error x => .error x
  | .ok (.goto b, s) => run (resume (parseElement p k) b) ⟨es, ft, s⟩
  | .ok (.pop v, s) => .ok (v, ⟨es, ft, s⟩)
  | .ok (.push child, s) =>
    run (leaving (resume (parseElement p (k - 1)) child.activity) >>= fun v =>
      resume (parseElement p k) (receive child.name v a)) ⟨es, ft, s⟩

section Step

variable (p : Platform) (k : Nat) (es : List Event) (ft : Option String) (s : DecoderState)
  (hk : s.depth + k = MAX_NESTING_DEPTH)

/-- A text is read on by the events that hold some. -/
theorem run_textLoop_cons (closing : String) (out : Text) (e : Event) :
    run (textLoop closing out) ⟨e :: es, ft, s⟩ = match e with
      | .stop t => if t = closing then .ok (out, ⟨es, ft, s⟩)
        else run (textLoop closing out) ⟨es, ft, s⟩
      | e => match eventText e with
        | .ok t => run (textLoop closing (out ++ t)) ⟨es, ft, s⟩
        | .error x => .error x := by
  rw [textLoop, run_loop_cons (respects_textTurn framing_consumes closing)]
  cases e with
  | stop t =>
      simp only [textTurn, run_pure]
      split_ifs <;> rfl
  | start | empty | text | cdata | other => rfl
  | generalRef name char =>
      simp only [textTurn, run_bind, run_lift, run_pure]
      cases eventText (.generalRef name char) <;> rfl

theorem run_skipLoop_cons (level : Nat) (e : Event) :
    run (skipLoop level) ⟨e :: es, ft, s⟩ = match e with
      | .start _ _ => run (skipLoop (level + 1)) ⟨es, ft, s⟩
      | .stop _ => if level - 1 = 0 then .ok ((), ⟨es, ft, s⟩)
        else run (skipLoop (level - 1)) ⟨es, ft, s⟩
      | _ => run (skipLoop level) ⟨es, ft, s⟩ := by
  rw [skipLoop, run_loop_cons (respects_skipTurn framing_consumes)]
  cases e with
  | stop t =>
      simp only [skipTurn, run_pure]
      split_ifs <;> rfl
  | _ => rfl

theorem run_typeNamesLoop_cons (names : List Text) (e : Event) :
    run (typeNamesLoop names) ⟨e :: es, ft, s⟩ = match e with
      | .start tag _ =>
        if tag = "T" then
          run (do
            let text ← textLoop "T" []
            typeNamesLoop (names ++ [decodePwshEscapes text])) ⟨es, ft, s⟩
        else run (typeNamesLoop names) ⟨es, ft, s⟩
      | .stop tag => if tag = "TN" then .ok (names, ⟨es, ft, s⟩)
        else run (typeNamesLoop names) ⟨es, ft, s⟩
      | _ => run (typeNamesLoop names) ⟨es, ft, s⟩ := by
  rw [typeNamesLoop, run_loop_cons (respects_typeNamesTurn framing_consumes)]
  cases e with
  | start tag attrs =>
      simp only [typeNamesTurn]
      split_ifs
      · simp only [readText, run_bind, run_pure]
        cases run (textLoop "T" []) ⟨es, ft, s⟩ <;> rfl
      · rfl
  | stop tag =>
      simp only [typeNamesTurn, run_pure]
      split_ifs <;> rfl
  | _ => rfl

theorem run_resume_leaf (tag : String) (parse : Text → Except PsrpError PsValue) (text : Text)
    (e : Event) : run (resume (parseElement p k) (.leaf tag parse text)) ⟨e :: es, ft, s⟩
      = after p k (.leaf tag parse text) es ft (leafStep tag parse text s e) := by
  simp only [resume, run_bind, run_textLoop_cons]
  cases e with
  | stop t =>
      simp only [leafStep]
      split_ifs
      · simp only [run_lift]
        cases parse (decodePwshEscapes text) <;> rfl
      · simp only [after, resume, run_bind]
  | start | empty | text | cdata | other =>
      simp only [leafStep, eventText, Except.map, after, resume, run_bind]
  | generalRef name char =>
      simp only [leafStep]
      cases eventText (.generalRef name char) with
      | error x => rfl
      | ok t => simp only [Except.map, after, resume, run_bind]

theorem run_resume_skip (level : Nat) (value : Option PsValue) (e : Event) :
    run (resume (parseElement p k) (.skip level value)) ⟨e :: es, ft, s⟩
      = after p k (.skip level value) es ft (skipStep level value s e) := by
  simp only [resume, run_bind, run_skipLoop_cons]
  cases e with
  | stop t =>
      simp only [skipStep]
      split_ifs
      · rfl
      · simp only [after, resume, run_bind]
  | _ => simp only [skipStep, after, resume, run_bind]

theorem run_resume_skipRef (ctx : ObjCtx) (rid : Option Text) (level : Nat) (e : Event) :
    run (resume (parseElement p k) (.object ctx (.skipRef rid level))) ⟨e :: es, ft, s⟩
      = after p k (.object ctx (.skipRef rid level)) es ft (skipRefStep ctx rid level s e) := by
  simp only [resume, resumeMode, run_bind, run_skipLoop_cons]
  cases e with
  | stop t =>
      simp only [skipRefStep]
      split_ifs
      · simp only [after, resume, resumeMode, run_bind, run_update, Except.map]
      · simp only [after, resume, resumeMode, run_bind]
  | _ => simp only [skipRefStep, after, resume, resumeMode, run_bind]

theorem run_resume_typeName (ctx : ObjCtx) (rid : Option Text) (names : List Text) (text : Text)
    (e : Event) :
    run (resume (parseElement p k) (.object ctx (.typeName rid names text))) ⟨e :: es, ft, s⟩
      = after p k (.object ctx (.typeName rid names text)) es ft
          (typeNameStep ctx rid names text s e) := by
  simp only [resume, resumeMode, run_bind, run_textLoop_cons]
  cases e with
  | stop t =>
      simp only [typeNameStep]
      split_ifs <;> simp only [after, resume, resumeMode, run_bind]
  | start | empty | text | cdata | other =>
      simp only [typeNameStep, eventText, Except.map, after, resume, resumeMode, run_bind]
  | generalRef name char =>
      simp only [typeNameStep]
      cases eventText (.generalRef name char) with
      | error x => rfl
      | ok t => simp only [Except.map, after, resume, resumeMode, run_bind]

theorem run_resume_typeNames (ctx : ObjCtx) (rid : Option Text) (names : List Text) (e : Event) :
    run (resume (parseElement p k) (.object ctx (.typeNames rid names))) ⟨e :: es, ft, s⟩
      = after p k (.object ctx (.typeNames rid names)) es ft (typeNamesStep ctx rid names s e) := by
  simp only [resume, resumeMode, run_bind, run_typeNamesLoop_cons]
  cases e with
  | start tag attrs =>
      simp only [typeNamesStep]
      split_ifs
      · simp only [after, resume, resumeMode, run_bind]
        cases run (textLoop "T" []) ⟨es, ft, s⟩ <;> rfl
      · simp only [after, resume, resumeMode, run_bind]
  | stop tag =>
      simp only [typeNamesStep]
      split_ifs
      · simp only [run_update, Except.map, after, resume, resumeMode, run_bind]
      · simp only [after, resume, resumeMode, run_bind]
  | _ => simp only [typeNamesStep, after, resume, resumeMode, run_bind]

theorem run_dictLoop_cons (entries : List (PsValue × PsValue)) (e : Event) :
    run (dictLoop (parseElement p k) entries) ⟨e :: es, ft, s⟩ = match e with
      | .start tag _ =>
        if tag = "En" then
          run (do
            let entry ← entryLoop (parseElement p k) (.null, .null)
            dictLoop (parseElement p k) (entries ++ [entry])) ⟨es, ft, s⟩
        else run (dictLoop (parseElement p k) entries) ⟨es, ft, s⟩
      | .stop tag => if tag = "DCT" then .ok (entries, ⟨es, ft, s⟩)
        else run (dictLoop (parseElement p k) entries) ⟨es, ft, s⟩
      | _ => run (dictLoop (parseElement p k) entries) ⟨es, ft, s⟩ := by
  rw [dictLoop, run_loop_cons (respects_dictTurn framing_consumes (consumes_parseElement p k))]
  cases e with
  | start tag attrs =>
      simp only [dictTurn]
      split_ifs
      · simp only [parseDictEntry, run_bind, run_pure]
        cases run (entryLoop (parseElement p k) (.null, .null)) ⟨es, ft, s⟩ <;> rfl
      · rfl
  | stop tag =>
      simp only [dictTurn, run_pure]
      split_ifs <;> rfl
  | _ => rfl

theorem run_resume_dict (ctx : ObjCtx) (entries : List (PsValue × PsValue)) (e : Event) :
    run (resume (parseElement p k) (.object ctx (.dict entries))) ⟨e :: es, ft, s⟩
      = after p k (.object ctx (.dict entries)) es ft (dictStep ctx entries s e) := by
  simp only [resume, resumeMode, run_bind, run_dictLoop_cons]
  cases e with
  | start tag attrs =>
      simp only [dictStep]
      split_ifs
      · simp only [after, resume, resumeMode, run_bind]
        cases run (entryLoop (parseElement p k) (.null, .null)) ⟨es, ft, s⟩ <;> rfl
      · simp only [after, resume, resumeMode, run_bind]
  | stop tag =>
      simp only [dictStep]
      split_ifs <;> simp only [after, resume, resumeMode, run_bind]
  | _ => simp only [dictStep, after, resume, resumeMode, run_bind]

include hk

theorem run_resume_list (ctx : ObjCtx) (closing : String) (items : List PsValue) (e : Event) :
    run (resume (parseElement p k) (.object ctx (.list closing items))) ⟨e :: es, ft, s⟩
      = after p k (.object ctx (.list closing items)) es ft
          (listStep p ctx closing items s e) := by
  simp only [resume, resumeMode, run_bind, listLoop]
  rw [run_loop_cons (respects_listTurn framing_consumes (consumes_parseElement p k) closing)]
  cases e with
  | start tag attrs =>
      simp only [listTurn, listStep, pushElement, run_bind]
      rw [run_parseElement p k [] tag attrs es ft s hk]
      cases openElement p [] tag attrs s with
      | error x => rfl
      | ok r =>
          simp only [Except.map, after, run_bind]
          cases run (leaving (resume (parseElement p (k - 1)) r.1.activity)) ⟨es, ft, r.2⟩ with
          | error x => rfl
          | ok r =>
              rcases r with ⟨v, c⟩
              cases v <;> simp only [run_pure, receive, Option.toList, List.append_nil, resume,
                resumeMode, run_bind, listLoop]
  | empty tag attrs =>
      simp only [listTurn, listStep, receiveEmpty, run_bind, run_update]
      cases parseEmpty tag attrs s with
      | error x => rfl
      | ok r =>
          rcases r with ⟨v, s'⟩
          cases v <;> simp only [Except.map, run_pure, receive, Option.toList, after, resume,
            resumeMode, run_bind, listLoop, Bool.false_eq_true, if_false]
  | stop tag =>
      simp only [listTurn, listStep, run_pure]
      split_ifs <;> simp only [after, resume, resumeMode, run_bind, listLoop]
  | _ => simp only [listTurn, listStep, run_pure, after, resume, resumeMode, run_bind, listLoop]

theorem run_resume_members (ctx : ObjCtx) (closing : String) (e : Event) :
    run (resume (parseElement p k) (.object ctx (.members closing))) ⟨e :: es, ft, s⟩
      = after p k (.object ctx (.members closing)) es ft (membersStep p ctx closing s e) := by
  simp only [resume, resumeMode, run_bind, parseMemberSet]
  -- One turn of the loop on the event, against one step of the machine.
  rw [run_loop_cons (respects_membersTurn framing_consumes (consumes_parseElement p k) closing)]
  cases e with
  | start tag attrs =>
      simp only [membersTurn, membersStep, pushNamed, pushElement, run_bind, run_lift]
      cases nameAttr attrs with
      | error x => rfl
      | ok name =>
          simp only [Except.map]
          -- The element is read by the recursion, or pushed and read by the machine.
          rw [run_parseElement p k (name.getD []) tag attrs es ft s hk]
          cases hopen : openElement p (name.getD []) tag attrs s with
          | error x => rfl
          | ok r =>
              have hname := openElement_name p _ tag attrs s r.2 r.1 hopen
              simp only [after, run_bind, hname]
              cases run (leaving (resume (parseElement p (k - 1)) r.1.activity)) ⟨es, ft, r.2⟩ with
              | error x => rfl
              | ok r =>
                  rcases r with ⟨v, c⟩
                  cases v <;> simp only [run_pure, receive, resume, resumeMode, run_bind,
                    parseMemberSet]
  | empty tag attrs =>
      simp only [membersTurn, membersStep]
      split_ifs
      · simp only [run_bind, run_lift]
        cases nameAttr attrs with
        | error x => rfl
        | ok name =>
            cases name <;> simp only [Except.map, run_pure, Option.map_none, Option.map_some,
              Option.getD_some, receive, after, resume, resumeMode, run_bind,
              parseMemberSet]
      · simp only [receiveEmpty, run_bind, run_update]
        cases parseEmpty tag attrs s with
        | error x => rfl
        | ok r =>
            rcases r with ⟨v, s'⟩
            cases v with
            | none => simp only [Except.map, run_pure, after, resume, resumeMode, run_bind,
                parseMemberSet]
            | some v =>
                simp only [Except.map, run_bind, run_lift, if_true]
                cases nameAttr attrs with
                | error x => rfl
                | ok name => simp only [run_pure, receive, after, resume, resumeMode, run_bind,
                    parseMemberSet]
  | stop tag =>
      simp only [membersTurn, membersStep, run_pure]
      split_ifs <;> simp only [after, resume, resumeMode, run_bind, parseMemberSet]
  | _ => simp only [membersTurn, membersStep, run_pure, after, resume, resumeMode, run_bind,
      parseMemberSet]

theorem run_resume_entry (ctx : ObjCtx) (entries : List (PsValue × PsValue))
    (entry : PsValue × PsValue) (e : Event) :
    run (resume (parseElement p k) (.object ctx (.entry entries entry))) ⟨e :: es, ft, s⟩
      = after p k (.object ctx (.entry entries entry)) es ft
          (entryStep p ctx entries entry s e) := by
  simp only [resume, resumeMode, run_bind, entryLoop]
  -- As for the members of an object, with the loop of an entry.
  rw [run_loop_cons (respects_entryTurn framing_consumes (consumes_parseElement p k))]
  cases e with
  | start tag attrs =>
      simp only [entryTurn, entryStep, pushNamed, pushElement, run_bind, run_lift]
      cases nameAttr attrs with
      | error x => rfl
      | ok name =>
          simp only [Except.map]
          rw [run_parseElement p k (name.getD []) tag attrs es ft s hk]
          cases hopen : openElement p (name.getD []) tag attrs s with
          | error x => rfl
          | ok r =>
              have hname := openElement_name p _ tag attrs s r.2 r.1 hopen
              simp only [after, run_bind, hname]
              cases run (leaving (resume (parseElement p (k - 1)) r.1.activity)) ⟨es, ft, r.2⟩ with
              | error x => rfl
              | ok r =>
                  rcases r with ⟨v, c⟩
                  cases v <;> simp only [run_pure, receive, resume, resumeMode, run_bind, entryLoop]
  | empty tag attrs =>
      simp only [entryTurn, entryStep, receiveEmpty, run_bind, run_update]
      cases parseEmpty tag attrs s with
      | error x => rfl
      | ok r =>
          rcases r with ⟨v, s'⟩
          cases v with
          | none => simp only [Except.map, run_pure, after, resume, resumeMode, run_bind, entryLoop]
          | some v =>
              simp only [Except.map, run_bind, run_lift, if_true]
              cases nameAttr attrs with
              | error x => rfl
              | ok name => simp only [run_pure, receive, after, resume, resumeMode, run_bind,
                  entryLoop]
  | stop tag =>
      simp only [entryTurn, entryStep, run_pure]
      split_ifs <;> simp only [after, resume, resumeMode, run_bind, entryLoop]
  | _ => simp only [entryTurn, entryStep, run_pure, after, resume, resumeMode, run_bind, entryLoop]

/-- The body of an object calls the loops that the other modes are in. -/
theorem run_resume_body (ctx : ObjCtx) (e : Event) :
    run (resume (parseElement p k) (.object ctx .body)) ⟨e :: es, ft, s⟩
      = after p k (.object ctx .body) es ft (bodyStep p ctx s e) := by
  simp only [resume, resumeMode, run_bind, objLoop]
  -- Each tag of the body has a loop or a reader of its own.
  rw [run_loop_cons (respects_objTurn framing_consumes (consumes_parseElement p k))]
  cases e with
  | start tag attrs =>
      simp only [objTurn, bodyStep]
      split_ifs
      · simp only [run_bind, run_pure, after, resume, resumeMode, objLoop]
        cases run (parseMemberSet (parseElement p k) ctx.obj tag) ⟨es, ft, s⟩ <;> rfl
      · simp only [run_bind, run_lift]
        cases refIdAttr attrs with
        | error x => rfl
        | ok rid =>
            simp only [Except.map, run_bind, parseTypeNames, run_update, run_pure, after, resume,
              resumeMode, objLoop]
            cases run (typeNamesLoop []) ⟨es, ft, s⟩ <;> rfl
      · simp only [run_bind, run_lift]
        cases refRefIdAttr attrs with
        | error x => rfl
        | ok rid =>
            simp only [Except.map, run_bind, skipToEnd, run_update, run_pure, after, resume,
              resumeMode, objLoop]
            cases run (skipLoop 1) ⟨es, ft, s⟩ <;> rfl
      · simp only [run_bind, parseList, run_pure, after, resume, resumeMode, objLoop]
        cases run (listLoop (parseElement p k) tag []) ⟨es, ft, s⟩ <;> rfl
      · simp only [run_bind, parseDict, run_pure, after, resume, resumeMode, objLoop]
        cases run (dictLoop (parseElement p k) []) ⟨es, ft, s⟩ <;> rfl
      · simp only [run_bind, pushElement]
        -- Any other tag is a value of the object itself.
        rw [run_parseElement p k [] tag attrs es ft s hk]
        cases openElement p [] tag attrs s with
        | error x => rfl
        | ok r =>
            simp only [Except.map, after, run_bind]
            cases run (leaving (resume (parseElement p (k - 1)) r.1.activity)) ⟨es, ft, r.2⟩ with
            | error x => rfl
            | ok r => simp only [run_pure, receive, resume, resumeMode, run_bind, objLoop]
  | empty tag attrs =>
      simp only [objTurn, bodyStep]
      split_ifs
      · simp only [run_bind, run_lift]
        cases refRefIdAttr attrs with
        | error x => rfl
        | ok rid => simp only [Except.map, run_bind, run_update, run_pure, after, resume,
            resumeMode, objLoop]
      · simp only [run_pure, after, resume, resumeMode, run_bind, objLoop]
  | stop tag =>
      simp only [objTurn, bodyStep, run_pure]
      split_ifs
      · simp only [run_closeObj]
        cases keepReferenced ctx.refId (.object (exposeValue ctx.embedded ctx.obj)) s <;> rfl
      · simp only [after, resume, resumeMode, run_bind, objLoop]
  | _ => simp only [objTurn, bodyStep, run_pure, after, resume, resumeMode, run_bind, objLoop]

/-- One event of the machine is one turn of the loop its frame is in. -/
theorem run_resume_step (a : Activity) (e : Event) :
    run (resume (parseElement p k) a) ⟨e :: es, ft, s⟩ = after p k a es ft (a.step p s e) := by
  cases a with
  | leaf tag parse text => exact run_resume_leaf p k es ft s tag parse text e
  | skip level value => exact run_resume_skip p k es ft s level value e
  | object ctx mode =>
      cases mode with
      | body => exact run_resume_body p k es ft s hk ctx e
      | members closing => exact run_resume_members p k es ft s hk ctx closing e
      | list closing items => exact run_resume_list p k es ft s hk ctx closing items e
      | dict entries => exact run_resume_dict p k es ft s ctx entries e
      | entry entries entry => exact run_resume_entry p k es ft s hk ctx entries entry e
      | typeNames rid names => exact run_resume_typeNames p k es ft s ctx rid names e
      | typeName rid names text => exact run_resume_typeName p k es ft s ctx rid names text e
      | skipRef rid level => exact run_resume_skipRef p k es ft s ctx rid level e

omit hk in
/-- What an activation makes of the end of the document. -/
theorem run_resume_eof (a : Activity) :
    run (resume (parseElement p k) a) ⟨[], none, s⟩
      = a.atEof.map fun v => (v, ⟨[], none, s⟩) := by
  cases a with
  | leaf tag parse text => rfl
  | skip level value => rfl
  | object ctx mode => cases mode <;> rfl

omit hk in
theorem run_resume_fault (a : Activity) (msg : String) :
    run (resume (parseElement p k) a) ⟨[], some msg, s⟩ = .error (clixmlError msg) := by
  cases a with
  | leaf tag parse text => rfl
  | skip level value => rfl
  | object ctx mode => cases mode <;> rfl

end Step

/-- What is left to do in a stack of activations, the innermost given by its
    parts. -/
def denoteFrom (p : Platform) (out : List PsValue) (name : Text) (a : Activity) :
    List Frame → Decode (List PsValue)
  | [] => do
    let v ← leaving (resume (parseElement p (MAX_NESTING_DEPTH - 1)) a)
    topLoop p (out ++ v.toList)
  | f :: rest => do
    let v ← leaving (resume (parseElement p (MAX_NESTING_DEPTH - (rest.length + 2))) a)
    denoteFrom p out f.name (receive name v f.activity) rest

/-- What is left to do in a configuration. -/
def Config.denote (p : Platform) (c : Config) : Decode (List PsValue) :=
  match c.stack with
  | [] => topLoop p c.out
  | f :: rest => denoteFrom p c.out f.name f.activity rest

theorem denote_cons (p : Platform) (f : Frame) (rest : List Frame) (s : DecoderState)
    (out : List PsValue) :
    Config.denote p ⟨f :: rest, s, out⟩ = denoteFrom p out f.name f.activity rest := rfl

/-- What is left to do does not depend on the state. -/
theorem deliver_denote (p : Platform) (name : Text) (v : Option PsValue) (rest : List Frame)
    (s s' : DecoderState) (out : List PsValue) :
    (deliver name v ⟨rest, s, out⟩).denote p = (deliver name v ⟨rest, s', out⟩).denote p := by
  cases rest <;> rfl

/-- The innermost activation first, and then what its value leaves. -/
theorem denoteFrom_eq (p : Platform) (out : List PsValue) (name : Text) (a : Activity)
    (rest : List Frame) (s : DecoderState) :
    denoteFrom p out name a rest
      = leaving (resume (parseElement p (MAX_NESTING_DEPTH - (rest.length + 1))) a) >>= fun v =>
          (deliver name v ⟨rest, s, out⟩).denote p := by
  cases rest <;> rfl

theorem respects_topTurn (p : Platform) (out : List PsValue) (e : Event) :
    Pull.Respects Pull.Consumes (topTurn p out e) := by
  have hR := framing_consumes
  cases e with
  | start tag attrs =>
      exact hR.bind (consumes_parseElement p _ tag attrs) fun _ => hR.pure _
  | empty tag attrs => exact hR.bind (hR.parseEmpty tag attrs) fun _ => hR.pure _
  | _ => exact hR.pure _

/-- One step of the machine, and what is left to do after it. -/
theorem run_denote_step (p : Platform) (c : Config) (hc : c.Counted) (e : Event)
    (es : List Event) (ft : Option String) :
    run (c.denote p) ⟨e :: es, ft, c.state⟩ = match c.step p e with
      | .ok c' => run (c'.denote p) ⟨es, ft, c'.state⟩
      | .error x => .error x := by
  rcases c with ⟨stack, s, out⟩
  rcases hc with ⟨hdepth, hmax⟩
  -- At the top level the step is a turn of the top loop.
  cases stack with
  | nil =>
      rw [show Config.denote p ⟨[], s, out⟩ = topLoop p out from rfl, topLoop,
        run_loop_cons (respects_topTurn p)]
      cases e with
      | start tag attrs =>
          simp only [List.length_nil] at hdepth
          simp only [topTurn, run_bind, Config.step]
          rw [run_parseElement p MAX_NESTING_DEPTH [] tag attrs es ft s (by omega)]
          cases openElement p [] tag attrs s with
          | error x => rfl
          | ok r =>
              simp only [Except.map, denote_cons, denoteFrom, run_bind]
              cases run (leaving (resume (parseElement p (MAX_NESTING_DEPTH - 1)) r.1.activity))
                ⟨es, ft, r.2⟩ <;> rfl
      | empty tag attrs =>
          simp only [topTurn, run_bind, run_update, Config.step]
          cases parseEmpty tag attrs s <;> rfl
      | _ => rfl
  | cons f rest =>
      simp only [List.length_cons] at hdepth hmax
      simp only [denote_cons, Config.step]
      -- Inside an element it is a step of the innermost reader, whose move says what is left.
      rw [denoteFrom_eq p out f.name f.activity rest s, run_bind, run_leaving,
        run_resume_step p _ es ft s (by omega) f.activity e]
      cases f.activity.step p s e with
      | error x => rfl
      | ok r =>
          rcases r with ⟨m, s'⟩
          cases m with
          | goto b =>
              simp only [Except.map, after, Config.move, denote_cons]
              rw [denoteFrom_eq p out f.name b rest s, run_bind, run_leaving]
          | pop v =>
              simp only [Except.map, after, Config.move, deliver_state]
              rw [deliver_denote p f.name v rest s _ out]
          | push child =>
              simp only [Except.map, after, Config.move, denote_cons, denoteFrom, run_bind,
                Nat.sub_sub]
              cases run (leaving (resume (parseElement p (MAX_NESTING_DEPTH - (rest.length + 2)))
                child.activity)) ⟨es, ft, s'⟩ with
              | error x => rfl
              | ok r =>
                  simp only []
                  rw [denoteFrom_eq p out f.name (receive child.name r.1 f.activity) rest s,
                    run_bind, run_leaving]

/-- The end of the document closes the frames from the top. -/
theorem run_denoteFrom_eof (p : Platform) (out : List PsValue) :
    ∀ (rest : List Frame) (name : Text) (a : Activity) (s : DecoderState),
      (run (denoteFrom p out name a rest) ⟨[], none, s⟩).map Prod.fst
        = finish out name a rest := by
  intro rest
  induction rest with
  | nil =>
      intro name a s
      simp only [denoteFrom, finish, run_bind, run_leaving, run_resume_eof]
      cases a.atEof <;> rfl
  | cons f rest ih =>
      intro name a s
      simp only [denoteFrom, finish, run_bind, run_leaving, run_resume_eof]
      cases a.atEof with
      | error x => rfl
      | ok v => exact ih f.name (receive name v f.activity) _

/-- The machine runs what its configuration stands for. -/
theorem run_denote (p : Platform) (ft : Option String) (es : List Event) :
    ∀ c : Config, c.Counted →
      (run (c.denote p) ⟨es, ft, c.state⟩).map Prod.fst = c.run p ft es := by
  induction es with
  | nil =>
      intro c _
      rcases c with ⟨stack, s, out⟩
      cases stack with
      | nil => cases ft <;> rfl
      | cons f rest =>
          cases ft with
          | none => exact run_denoteFrom_eof p out rest f.name f.activity s
          | some msg =>
              simp only [Config.denote, Config.run]
              rw [denoteFrom_eq p out f.name f.activity rest s, run_bind, run_leaving,
                run_resume_fault]
              rfl
  | cons e es ih =>
      intro c hc
      rw [run_denote_step p c hc e es ft, Config.run]
      cases hstep : c.step p e with
      | error x => rfl
      | ok c' => exact ih c' (hc.step hstep)

theorem counted_start (s : DecoderState) (h : s.depth = 0) : (Config.start s).Counted :=
  ⟨h, Nat.zero_le _⟩

/-- The machine on a document. -/
def decode (p : Platform) (xml : Text) : Except PsrpError (List PsValue) :=
  let stream := p.read (cleanDocument xml)
  (Config.start (initialState stream.events (Text.utf8Len (cleanDocument xml)))).run p
    stream.fault stream.events

/-- The decoder is the machine. -/
theorem parseClixml_eq_decode (p : Platform) (xml : Text) :
    parseClixml p xml = decode p xml :=
  run_denote p _ _ _ (counted_start _ rfl)

end Machine

end Psrp
