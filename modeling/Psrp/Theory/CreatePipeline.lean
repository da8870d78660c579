import Psrp.Core.CreatePipeline
import Psrp.Theory.SharedNames

/-!
# The Document of a Pipeline Is Faithful

The body of a `CreatePipeline` message is put together by hand, from pieces of
text, and the decoder reads the pipeline from it.

`pipelineValue` is the pipeline as one value: what a writer would hand to the
encoder who did not mind writing every block of type names again. The builder
writes a document of that value in which the names are shared: one block for
the lists, one for all merge enumerations. Each of its functions has one lemma
that says what it wrote (`Wrote`), which blocks it relied on and which it left
for the next; the ids that it took are the interval between the two outputs.

## Main definitions

* `pipelineValue`: The pipeline as one value.
* `Wrote`, `WroteMembers`, `WroteItems`: What stands between two outputs.

## Theorems

* `wrote_pipeline`: The builder writes the pipeline, with names shared.
* `create_pipeline_faithful`: The document is decoded as the pipeline, and its
  ids are distinct.
-/

namespace Psrp

open Xml (Node renderList eventsList)

/-- An argument: its name, if it has one, and its value. -/
def argObject (name value : PsValue) : PsValue :=
  .object ⟨[("N".toList, name), ("V".toList, value)], [], none⟩

def argValue : PipelineArgSpec → PsValue
  | .named name value => argObject (.string name) value
  | .positional value => argObject .null value
  | .switch name => argObject (.string name) (.bool true)

/-- The value of an argument is one of the program. -/
def PipelineArgSpec.Valid : PipelineArgSpec → Prop
  | .named _ value => value.Valid
  | .positional value => value.Valid
  | .switch _ => True

/-- A list with the type that commands and arguments have. -/
def commandList (items : List PsValue) : PsObject :=
  ⟨[(valueKey, .list items)], [commandListType.toList, "System.Object".toList], none⟩

/-- A merge field. -/
def mergeEnum (name : String) (value : Int32) : PsValue := psEnum pipelineResultTypes name value

/-- The merge fields before the arguments. -/
def mergeFields (merge : Bool) : List (Text × PsValue) :=
  [("MergeMyResult".toList, if merge then mergeEnum "Error" 2 else mergeEnum "None" 0),
    ("MergeToResult".toList, if merge then mergeEnum "Output" 1 else mergeEnum "None" 0),
    ("MergePreviousResults".toList, mergeEnum "None" 0)]

/-- The merge fields after them. -/
def laterMergeFields : List (Text × PsValue) :=
  ["MergeError", "MergeWarning", "MergeVerbose", "MergeDebug", "MergeInformation"].map
    fun name => (name.toList, mergeEnum "None" 0)

def commandMembers (c : PipelineCommandSpec) : List (Text × PsValue) :=
  [("Cmd".toList, .string c.name), ("IsScript".toList, .bool c.isScript),
      ("UseLocalScope".toList, .null)] ++ mergeFields c.mergeErrorsToOutput
    ++ [("Args".toList, .object (commandList (c.args.map argValue)))] ++ laterMergeFields

def commandValue (c : PipelineCommandSpec) : PsValue := .object ⟨commandMembers c, [], none⟩

/-- The commands, and what else the engine wants to know of them. -/
def powerShellMembers (commands : List PipelineCommandSpec) : List (Text × PsValue) :=
  [("IsNested".toList, .bool false), ("ExtraCmds".toList, .null),
    ("Cmds".toList, .object (commandList (commands.map commandValue))), ("History".toList, .null),
    ("RedirectShellErrorOutputPipe".toList, .bool false)]

def pipelineMembers (noInput addToHistory addInvocationInfo : Bool)
    (commands : List PipelineCommandSpec) : List (Text × PsValue) :=
  [("NoInput".toList, .bool noInput),
    ("ApartmentState".toList,
      psEnum "System.Management.Automation.Runspaces.ApartmentState" "UNKNOWN" 2),
    ("RemoteStreamOptions".toList, if addInvocationInfo
      then psEnum "System.Management.Automation.Runspaces.RemoteStreamOptions"
        "AddInvocationInfo" 15
      else psEnum "System.Management.Automation.Runspaces.RemoteStreamOptions" "None" 0),
    ("AddToHistory".toList, .bool addToHistory), ("HostInfo".toList, psHostInfoNull),
    ("PowerShell".toList, .object ⟨powerShellMembers commands, [], none⟩),
    ("IsNested".toList, .bool false)]

/-- The pipeline as one value. -/
def pipelineValue (noInput addToHistory addInvocationInfo : Bool)
    (commands : List PipelineCommandSpec) : PsValue :=
  .object ⟨pipelineMembers noInput addToHistory addInvocationInfo commands, [], none⟩

section Outputs

variable {p : Platform} {T T' T'' : Blocks} {o o' o'' : Out}

/-- Trees stand between two outputs, and took every id between them once. -/
structure Extends (o : Out) (ns : List Node) (o' : Out) : Prop where
  text : o' = o.append (ns, o'.next)
  count : o'.next ≤ o.next + (takenIds (eventsList ns)).length
  ids : o'.next < lastId → o.next ≤ o'.next
    ∧ (takenIds (eventsList ns)).Perm (idRange o.next o'.next)

/-- All blocks have ids that were taken. -/
def Young (T : Blocks) (next : Nat) : Prop := ∀ b ∈ T, b.1 < next

/-- A document of a value stands between two outputs. -/
def Wrote (p : Platform) (T : Blocks) (o : Out) (v : PsValue) (name : Option Text) (o' : Out)
    (T' : Blocks) : Prop :=
  ∃ n, Extends o [n] o' ∧ (o'.next < lastId → Young T o.next →
    Shares p T v name n T' ∧ Young T' o'.next)

/-- Documents of members stand between two outputs. -/
def WroteMembers (p : Platform) (T : Blocks) (o : Out) (props : List (Text × PsValue)) (o' : Out)
    (T' : Blocks) : Prop :=
  ∃ ns, Extends o ns o' ∧ (o'.next < lastId → Young T o.next →
    SharesMembers p T props ns T' ∧ Young T' o'.next)

/-- Documents of items stand between two outputs. -/
def WroteItems (p : Platform) (T : Blocks) (o : Out) (items : List PsValue) (o' : Out)
    (T' : Blocks) : Prop :=
  ∃ ns, Extends o ns o' ∧ (o'.next < lastId → Young T o.next →
    SharesItems p T items ns T' ∧ Young T' o'.next)

/-- What is numbered in order is numbered. -/
theorem Extends.of_numbers {ns : List Node} {next : Nat}
    (h : Numbers o.next next (eventsList ns)) : Extends o ns (o.append (ns, next)) where
  text := rfl
  count := h.count
  ids := by
    intro hlast
    rcases h.ids hlast with ⟨hle, htaken⟩
    refine ⟨hle, ?_⟩
    rw [htaken]
    exact List.Perm.refl _

theorem Extends.nil : Extends o [] o := by
  have hnil : o.append ([], o.next) = o := Out.ext (List.append_nil _) rfl
  have hnumbers : Numbers o.next o.next (eventsList []) := .of_none rfl
  have hext := Extends.of_numbers hnumbers
  rwa [hnil] at hext

theorem Extends.append {ns ms : List Node} (h : Extends o ns o') (h' : Extends o' ms o'') :
    Extends o (ns ++ ms) o'' := by
  refine ⟨?_, ?_, fun hlast => ?_⟩
  · have heq := h'.text
    rw [h.text] at heq
    rw [append_append] at heq
    exact heq
  · have hcount := h.count
    have hcount' := h'.count
    rw [Xml.eventsList_append, takenIds_append, List.length_append]
    omega
  · rcases h'.ids hlast with ⟨hle', hperm'⟩
    rcases h.ids (by omega) with ⟨hle, hperm⟩
    refine ⟨by omega, ?_⟩
    rw [Xml.eventsList_append, takenIds_append, ← idRange_append hle hle']
    exact hperm.append hperm'

theorem Extends.le {ns : List Node} (h : Extends o ns o') (hlast : o'.next < lastId) :
    o.next ≤ o'.next := (h.ids hlast).1

theorem Young.mono {m n : Nat} (h : Young T m) (hle : m ≤ n) : Young T n :=
  fun b hb => Nat.lt_of_lt_of_le (h b hb) hle

theorem SharesMembers.append {props qs : List (Text × PsValue)} {ns ms : List Node}
    (h : SharesMembers p T props ns T') (h' : SharesMembers p T' qs ms T'') :
    SharesMembers p T (props ++ qs) (ns ++ ms) T'' := by
  induction props generalizing T ns with
  | nil =>
      cases h
      exact h'
  | cons q props ih =>
      cases h with
      | cons hv hrest => exact .cons hv (ih hrest)

theorem WroteMembers.append {props qs : List (Text × PsValue)} (h : WroteMembers p T o props o' T')
    (h' : WroteMembers p T' o' qs o'' T'') : WroteMembers p T o (props ++ qs) o'' T'' := by
  rcases h with ⟨ns, hext, hshares⟩
  rcases h' with ⟨ms, hext', hshares'⟩
  refine ⟨ns ++ ms, hext.append hext', fun hlast hT => ?_⟩
  have hle := hext'.le hlast
  rcases hshares (by omega) hT with ⟨hs, hT'⟩
  rcases hshares' hlast hT' with ⟨hs', hT''⟩
  exact ⟨hs.append hs', hT''⟩

theorem Wrote.member {k : Text} {v : PsValue} (h : Wrote p T o v (some k) o' T') :
    WroteMembers p T o [(k, v)] o' T' := by
  rcases h with ⟨n, hext, hshares⟩
  refine ⟨[n], hext, fun hlast hT => ?_⟩
  exact ⟨.cons (hshares hlast hT).1 .nil, (hshares hlast hT).2⟩

theorem WroteMembers.snoc {props : List (Text × PsValue)} {k : Text} {v : PsValue}
    (h : WroteMembers p T o props o' T') (h' : Wrote p T' o' v (some k) o'' T'') :
    WroteMembers p T o (props ++ [(k, v)]) o'' T'' := h.append h'.member

theorem WroteItems.nil : WroteItems p T o [] o T :=
  ⟨[], .nil, fun _ hT => ⟨.nil, hT⟩⟩

theorem WroteItems.cons {v : PsValue} {vs : List PsValue} (h : Wrote p T o v none o' T')
    (h' : WroteItems p T' o' vs o'' T'') : WroteItems p T o (v :: vs) o'' T'' := by
  rcases h with ⟨n, hext, hshares⟩
  rcases h' with ⟨ns, hext', hshares'⟩
  refine ⟨n :: ns, hext.append hext', fun hlast hT => ?_⟩
  have hle := hext'.le hlast
  rcases hshares (by omega) hT with ⟨hs, hT'⟩
  rcases hshares' hlast hT' with ⟨hs', hT''⟩
  exact ⟨.cons hs hs', hT''⟩

/-- The encoder takes the ids from where it is. -/
theorem extends_value (hp : p.Lawful) (v : PsValue) (name : Option Text) (o : Out) :
    Extends o [(node p v name o.next).1] (writeValueWith p v name o) := by
  rw [writeValueWith_eq hp v]
  refine .of_numbers ((numbers_node v name o.next).of_same ?_)
  rw [Xml.eventsList, Xml.eventsList, List.append_nil]

theorem writeValueWith_next (hp : p.Lawful) (v : PsValue) (name : Option Text) (o : Out) :
    (writeValueWith p v name o).next = (node p v name o.next).2 := by
  rw [writeValueWith_eq hp v]
  rfl

/-- The encoder writes a value, and shares nothing. -/
theorem wrote_value (hp : p.Lawful) {v : PsValue} (hv : v.Valid) (name : Option Text) (o : Out) :
    Wrote p T o v name (writeValueWith p v name o) T := by
  have hext := extends_value hp v name o
  refine ⟨_, hext, fun hlast hT => ⟨?_, hT.mono (hext.le hlast)⟩⟩
  rw [writeValueWith_next hp] at hlast
  exact .plain hv ⟨hlast, fun b hb => Or.inl (hT b hb)⟩

/-- An object takes an id, and then those of what is in it. -/
theorem Extends.obj {name : Option Text} {attrs : List (String × Text)} {children ns : List Node}
    (hattrs : ObjAttrs name o.next attrs) (h : Extends o' ns o'')
    (hsame : takenIds (eventsList children) = takenIds (eventsList ns))
    (hnext : o'.next = nextRefId o.next) {out : Out}
    (hout : out = o.append ([.element "Obj" attrs children], o''.next)) :
    Extends o [.element "Obj" attrs children] out := by
  have htaken : takenIds (eventsList [.element "Obj" attrs children])
      = intText o.next :: takenIds (eventsList ns) := by
    rw [Xml.eventsList, Xml.eventsList, List.append_nil,
      takenIds_cons (Machine.refIdAttr_of_objAttrs hattrs), hsame]
  subst hout
  refine ⟨rfl, ?_, fun hlast => ?_⟩
  · have hcount := h.count
    have hmin : nextRefId o.next ≤ o.next + 1 := Nat.min_le_left _ _
    rw [htaken, List.length_cons]
    show o''.next ≤ _
    omega
  · have hlast' : o''.next < lastId := hlast
    rcases h.ids hlast with ⟨hle, hperm⟩
    have hsucc : nextRefId o.next = o.next + 1 := nextRefId_of_lt (by omega)
    rw [hnext, hsucc] at hle hperm
    refine ⟨Nat.le_of_succ_le hle, ?_⟩
    rw [htaken]
    show (_ :: _).Perm (idRange o.next o''.next)
    rw [idRange_cons hle]
    exact hperm.cons _

/-- Blocks that were young stay so when an id is taken. -/
theorem Young.next {n m : Nat} (hT : Young T n) (hle : nextRefId n ≤ m) (hlast : m < lastId) :
    Young T (nextRefId n) := by
  have hsucc : nextRefId n = n + 1 := nextRefId_of_lt (by omega)
  exact hT.mono (by omega)

/-- An object around members: its id, the members, its end. -/
theorem wrote_object {props : List (Text × PsValue)} {name : Option Text}
    (h : WroteMembers p T ((openObj name o).pushStr "<MS>") props o' T')
    (hkeyed : IndexMap.Keyed props) (hnames : ∀ q ∈ props, q.1 ≠ valueKey) :
    Wrote p T o (.object ⟨props, [], none⟩) name (o'.pushStr "</MS></Obj>") T' := by
  rcases h with ⟨ns, hext, hshares⟩
  have hnext : ((openObj name o).pushStr "<MS>").next = nextRefId o.next := openObj_next name o
  have hout : o'.pushStr "</MS></Obj>"
      = o.append ([objNode name o.next [.element "MS" [] ns]], o'.next) := by
    have hend : o'.pushStr "</MS></Obj>" = (o'.pushStr "</MS>").pushStr "</Obj>" :=
      Out.ext (by simp) rfl
    have hmembers := element_append (openObj name o) "MS" ns o'.next
    have hobj := openObj_append name o [.element "MS" [] ns] o'.next
    rw [hend, ← hobj, ← hmembers]
    exact congrArg (fun out => (Out.pushStr out "</MS>").pushStr "</Obj>") hext.text
  refine ⟨objNode name o.next [.element "MS" [] ns], ?_, fun hlast hT => ?_⟩
  · refine hext.obj .nameFirst ?_ hnext hout
    rw [Xml.eventsList, Xml.eventsList, List.append_nil, takenIds_element]
  · have hle := hext.le hlast
    rw [hnext] at hle
    have hmembers := hshares hlast (by rw [hnext]; exact hT.next hle hlast)
    exact ⟨.members hkeyed hnames .nameFirst hmembers.1, hmembers.2⟩

/-- What is escaped in no text. -/
def isVerbatim (c : Char) : Bool :=
  0x20 ≤ c.toNat ∧ c ≠ '<' ∧ c ≠ '>' ∧ c ≠ '&' ∧ c ≠ '"' ∧ c ≠ '\'' ∧ c ≠ '_'

theorem escape_of_isVerbatim (t : Text) (h : t.all isVerbatim = true) : escape t = t := by
  unfold escape
  induction t with
  | nil => rfl
  | cons c t ih =>
      rw [List.all_cons, Bool.and_eq_true, isVerbatim, decide_eq_true_eq] at h
      rcases h with ⟨⟨hspace, hlt, hgt, hamp, hquot, hapos, hunder⟩, ht⟩
      have hlow : ¬c.toNat < 0x20 := by omega
      rw [escapeInner, ih ht]
      simp only [hlt, hgt, hamp, hquot, hapos, hunder, hlow, if_false, false_and, and_false,
        Bool.false_eq_true, List.cons_append, List.nil_append]

/-- The first of its kind is written as the encoder would write it. -/
theorem writeEnumFirstInGroup_eq (name : Option Text) (enumType toString : String) (value : Int32)
    (o : Out) :
    writeEnumFirstInGroup name enumType toString value.toInt o
      = (nextRefId o.next, writeValueWith p (psEnum enumType toString value) name o) := by
  have hnext : (openObj name o).next = nextRefId o.next := openObj_next name o
  have hescape : escape "System.Enum".toList = "System.Enum".toList
      ∧ escape "System.ValueType".toList = "System.ValueType".toList
      ∧ escape "System.Object".toList = "System.Object".toList :=
    ⟨escape_of_isVerbatim _ rfl, escape_of_isVerbatim _ rfl, escape_of_isVerbatim _ rfl⟩
  -- The builder pushes in one piece what the encoder pushes in several.
  have hpieces : "</T><T>System.Enum</T><T>System.ValueType</T><T>System.Object</T>".toList
      = "</T>".toList ++ ("<T>".toList ++ ("System.Enum".toList ++ ("</T>".toList
        ++ ("<T>".toList ++ ("System.ValueType".toList ++ ("</T>".toList ++ ("<T>".toList
        ++ ("System.Object".toList ++ "</T>".toList)))))))) := rfl
  have hvalue : "<I32>".toList = "<".toList ++ ("I32".toList ++ ">".toList)
      ∧ "</I32>".toList = "</".toList ++ ("I32".toList ++ ">".toList) := ⟨rfl, rfl⟩
  refine Prod.ext hnext (Out.ext ?_ ?_)
  · simp only [writeEnumFirstInGroup, psEnum, writeValueWith, writeTypeNames, writeToString,
      writeValueProp, simpleElement, writeSimple, Out.alloc, push_text, pushStr_text, hescape,
      hpieces, hvalue, List.foldl_cons, List.foldl_nil, List.all_cons, List.all_nil, decide_true,
      Bool.and_true, if_true, List.cons_ne_nil, if_false, Bool.false_eq_true, List.append_assoc]
  · simp only [writeEnumFirstInGroup, psEnum, writeValueWith, writeTypeNames, writeToString,
      writeValueProp, simpleElement, writeSimple, Out.alloc, push_next, pushStr_next,
      List.foldl_cons, List.foldl_nil, List.all_cons, List.all_nil, decide_true, Bool.and_true,
      if_true, List.cons_ne_nil, if_false, Bool.false_eq_true]

/-- The others point to the block. -/
theorem writeEnumWithTnref_eq (name : Option Text) (toString : String) (tnId : Nat)
    (value : Int32) (o : Out) :
    writeEnumWithTnref name tnId toString value.toInt o
      = o.append ([objNode name o.next (typeNamesRef tnId
          :: (toStringNodes (some toString.toList)
            ++ [.element "I32" [] [.text (intText value.toInt)]]))], nextRefId o.next) := by
  have htext : ∀ s, escape s = Xml.escapeText (pwshEscape false s) := escapeInner_eq false
  have hid : ∀ n : Int, Xml.escapeText (intText n) = intText n :=
    fun n => escapeText_of_isToken _ (intText_isToken n)
  rw [← openObj_append]
  refine Out.ext ?_ ?_
  · simp [writeEnumWithTnref, Out.append, typeNamesRef, toStringNodes, Node.render, renderList,
      Xml.renderAttrs, hid, htext]
  · rw [writeEnumWithTnref]
    exact openObj_next name o

/-- The encoder writes an object, and others may point to its type names. -/
theorem wrote_block (hp : p.Lawful) {obj : PsObject} (hv : PsValue.Valid (.object obj))
    (hnames : obj.typeNames ≠ []) (name : Option Text) (o : Out) :
    Wrote p T o (.object obj) name (writeValueWith p (.object obj) name o)
      ((nextRefId o.next, obj.typeNames) :: T) := by
  have hext := extends_value hp (.object obj) name o
  refine ⟨_, hext, fun hlast hT => ?_⟩
  rw [writeValueWith_next hp] at hlast ⊢
  refine ⟨.block hv hnames ⟨hlast, fun b hb => Or.inl (hT b hb)⟩, ?_⟩
  -- What is in the object comes after the block.
  rcases obj with ⟨props, typeNames, toString⟩
  have hnext : typeNamesNext typeNames (nextRefId o.next) = nextRefId (nextRefId o.next) :=
    if_neg hnames
  simp only [node, hnext] at hlast ⊢
  have hle := ((numbers_contents (p := p) props toString (nextRefId (nextRefId o.next))).ids hlast).1
  have hid' : nextRefId (nextRefId o.next) = nextRefId o.next + 1 := nextRefId_of_lt (by omega)
  have hid : nextRefId o.next = o.next + 1 := nextRefId_of_lt (by omega)
  intro b hb
  rcases List.mem_cons.mp hb with rfl | hb
  · simp only []
    omega
  · have hb' := hT b hb
    omega

/-- The type names of the merge fields. -/
def resultNames : List Text :=
  [pipelineResultTypes.toList, "System.Enum".toList, "System.ValueType".toList,
    "System.Object".toList]

/-- An enumeration is one of the program. -/
theorem valid_psEnum (enumType toString : String) (value : Int32) :
    (psEnum enumType toString value).Valid := by
  refine (PsValue.valid_object _).mpr ⟨List.nodup_singleton _, fun q hq => ?_⟩
  rw [List.mem_singleton.mp hq]
  trivial

theorem wrote_enumFirst (hp : p.Lawful) (name : Option Text) (toString : String) {value : Int32}
    {n : Int} (hn : n = value.toInt) (o : Out) :
    Wrote p T o (mergeEnum toString value) name
      (writeEnumFirstInGroup name pipelineResultTypes toString n o).2
      (((writeEnumFirstInGroup name pipelineResultTypes toString n o).1, resultNames) :: T) := by
  subst hn
  rw [writeEnumFirstInGroup_eq (p := p)]
  exact wrote_block hp (valid_psEnum _ _ _) (List.cons_ne_nil _ _) name o

theorem wrote_enumRef {tnId : Nat} (htn : (tnId, resultNames) ∈ T) (name : Option Text)
    (toString : String) {value : Int32} {n : Int} (hn : n = value.toInt) (o : Out) :
    Wrote p T o (mergeEnum toString value) name (writeEnumWithTnref name tnId toString n o) T := by
  subst hn
  have hout := writeEnumWithTnref_eq name toString tnId value o
  have hnone : takenIds (eventsList (typeNamesRef tnId :: (toStringNodes (some toString.toList)
      ++ [.element "I32" [] [.text (intText value.toInt)]]))) = [] := by
    simp only [toStringNodes, Xml.eventsList, List.cons_append, List.nil_append, takenIds_append,
      takenIds_text]
    rfl
  have hattrs : ObjAttrs name o.next (nameAttrs name ++ [("RefId", intText o.next)]) := .nameFirst
  have hnil : Extends (openObj name o) [] (openObj name o) := .nil
  refine ⟨_, hnil.obj hattrs hnone (openObj_next name o) ?_, fun hlast hT => ?_⟩
  · rw [hout, openObj_next]
    rfl
  · have hnext : (writeEnumWithTnref name tnId toString value.toInt o).next = nextRefId o.next := by
      rw [hout]
      rfl
    rw [hnext] at hlast ⊢
    have hyoung := hT.next (Nat.le_refl _) hlast
    refine ⟨?_, hyoung⟩
    have holder : Older T (nextRefId o.next) (nextRefId o.next) :=
      ⟨hlast, fun b hb => Or.inl (hyoung b hb)⟩
    exact .shared (valid_psEnum _ _ _) htn .nameFirst rfl rfl holder

/-- The three merge fields before the arguments. The first command writes the
    block, and the others point to it. -/
theorem wrote_mergeFields (hp : p.Lawful) (merge : Bool) {first : Option Nat}
    (hfirst : ∀ tn, first = some tn → (tn, resultNames) ∈ T) (o : Out) :
    ∃ T', (∀ b ∈ T, b ∈ T') ∧ ((writeMergeFields merge first o).1, resultNames) ∈ T'
      ∧ WroteMembers p T o (mergeFields merge) (writeMergeFields merge first o).2 T' := by
  -- The fields after the first are written the same way by every command.
  have hlater : ∀ {T' : Blocks} {tn : Nat} (output : String) {toVal : Int32} {n : Int} (o : Out),
      (tn, resultNames) ∈ T' → n = toVal.toInt →
      WroteMembers p T' o [("MergeToResult".toList, mergeEnum output toVal),
        ("MergePreviousResults".toList, mergeEnum "None" 0)]
        (writeEnumWithTnref (some "MergePreviousResults".toList) tn "None" 0
          (writeEnumWithTnref (some "MergeToResult".toList) tn output n o)) T' := by
    intro T' tn output toVal n o htn hn
    exact (wrote_enumRef htn _ output hn o).member.snoc (wrote_enumRef htn _ "None" rfl _)
  have hone : (1 : Int) = (1 : Int32).toInt := rfl
  cases first with
  | some tn =>
      have htn := hfirst tn rfl
      refine ⟨T, fun b hb => hb, htn, ?_⟩
      cases merge with
      | true =>
          exact (wrote_enumRef htn _ "Error" rfl o).member.append (hlater "Output" _ htn hone)
      | false => exact (wrote_enumRef htn _ "None" rfl o).member.append (hlater "None" _ htn rfl)
  | none =>
      refine ⟨_, fun b hb => List.mem_cons_of_mem _ hb, List.mem_cons_self .., ?_⟩
      cases merge with
      | true =>
          exact (wrote_enumFirst hp _ "Error" rfl o).member.append
            (hlater "Output" _ (List.mem_cons_self ..) hone)
      | false =>
          exact (wrote_enumFirst hp _ "None" rfl o).member.append
            (hlater "None" _ (List.mem_cons_self ..) rfl)

/-- An argument is what the encoder writes for it. -/
theorem writeArg_eq (o : Out) (arg : PipelineArgSpec) :
    writeArg p o arg = writeValueWith p (argValue arg) none o := by
  have hkeys : ("N".toList = valueKey) = False ∧ ("V".toList = valueKey) = False := by decide
  have hend : ∀ o : Out, (o.pushStr "</MS>").pushStr "</Obj>" = o.pushStr "</MS></Obj>" :=
    fun o => Out.ext (by simp) rfl
  cases arg <;>
    simp only [writeArg, argValue, argObject, writeValueWith, writeTypeNames, writeToString,
      writeValueProp, writeOtherProps, hkeys, hend, if_true, if_false, List.all_cons, List.all_nil,
      decide_false, Bool.false_and, Bool.false_eq_true]

theorem writeArgs_eq (args : List PipelineArgSpec) (o : Out) :
    args.foldl (writeArg p) o = writeItems p (args.map argValue) o := by
  induction args generalizing o with
  | nil => rfl
  | cons arg args ih => rw [List.foldl_cons, ih, writeArg_eq, List.map_cons, writeItems]

theorem valid_argValue {arg : PipelineArgSpec} (h : arg.Valid) : (argValue arg).Valid := by
  have hobject : ∀ name value : PsValue, name.Valid → value.Valid →
      (argObject name value).Valid := by
    intro name value hname hvalue
    have hkeyed : ["N".toList, "V".toList].Nodup := by decide
    refine (PsValue.valid_object _).mpr ⟨hkeyed, ?_⟩
    exact List.forall_mem_cons.mpr ⟨hname, List.forall_mem_cons.mpr
      ⟨hvalue, fun q hq => absurd hq List.not_mem_nil⟩⟩
  cases arg with
  | named name value => exact hobject _ _ trivial h
  | positional value => exact hobject _ _ trivial h
  | switch name => exact hobject _ _ trivial trivial

/-- The arguments of a command, in a list that points to the block of lists. -/
theorem wrote_args (hp : p.Lawful) {cmdsTn : Nat}
    (htn : (cmdsTn, (commandList []).typeNames) ∈ T) {args : List PipelineArgSpec}
    (hargs : ∀ arg ∈ args, arg.Valid) (o : Out) :
    Wrote p T o (.object (commandList (args.map argValue))) (some "Args".toList)
      ((args.foldl (writeArg p) (((((o.alloc.2.pushStr "<Obj RefId=\"").push
        (intText o.next)).pushStr "\" N=\"Args\"><TNRef RefId=\"").push
          (intText cmdsTn)).pushStr "\"/><LST>")).pushStr "</LST></Obj>") T := by
  have hid : ∀ n : Int, Xml.escapeText (intText n) = intText n :=
    fun n => escapeText_of_isToken _ (intText_isToken n)
  have hname : Xml.escapeText (pwshEscape true ['A', 'r', 'g', 's']) = ['A', 'r', 'g', 's'] := by
    decide
  -- The items are written like the items of any list,
  let items := args.map argValue
  let ns := itemNodes p items (nextRefId o.next)
  have hvalid : PsValue.Valid (.object (commandList items)) := by
    refine (PsValue.valid_object _).mpr ⟨List.nodup_singleton _, fun q hq => ?_⟩
    rw [List.mem_singleton.mp hq]
    refine (PsValue.valid_list _).mpr fun v hv => ?_
    rcases List.mem_map.mp hv with ⟨arg, harg, rfl⟩
    exact valid_argValue (hargs arg harg)
  have hattrs : ObjAttrs (some "Args".toList) o.next
      (("RefId", intText o.next) :: nameAttrs (some "Args".toList)) := .idFirst
  have hnumbers : Numbers (nextRefId o.next) ns.2 (eventsList ns.1) :=
    numbers_items items (fun v _ => numbers_node v) _
  have hext : Extends (openObj none o) ns.1 ((openObj none o).append ns) := .of_numbers hnumbers
  -- and the reference to the type names takes no id.
  have hsame : takenIds (eventsList (typeNamesRef cmdsTn :: (toStringNodes none
      ++ [.element "LST" [] ns.1] ++ []))) = takenIds (eventsList ns.1) := by
    simp only [toStringNodes, Xml.eventsList, List.append_nil, List.nil_append, takenIds_append,
      takenIds_element]
    rfl
  refine ⟨_, hext.obj hattrs hsame (openObj_next none o) ?_, fun hlast hT => ?_⟩
  · rw [writeArgs_eq, writeItems_eq _ fun v _ => writeValueWith_eq hp v]
    refine Out.ext ?_ rfl
    simp [Out.append, Out.alloc, Node.render, renderList, Xml.renderAttrs, nameAttrs, hid, hname,
      typeNamesRef, toStringNodes, ns, items]
  · -- Where the text ends, so do the ids.
    have hnext : ((args.foldl (writeArg p) (((((o.alloc.2.pushStr "<Obj RefId=\"").push
        (intText o.next)).pushStr "\" N=\"Args\"><TNRef RefId=\"").push
          (intText cmdsTn)).pushStr "\"/><LST>")).pushStr "</LST></Obj>").next = ns.2 := by
      rw [writeArgs_eq, writeItems_eq _ fun v _ => writeValueWith_eq hp v]
      rfl
    rw [hnext] at hlast ⊢
    have hle := (hnumbers.ids hlast).1
    have hyoung := hT.next hle hlast
    have holder : Older T (nextRefId o.next) ns.2 := ⟨hlast, fun b hb => Or.inl (hyoung b hb)⟩
    exact ⟨.shared hvalid htn hattrs rfl rfl holder, hyoung.mono hle⟩

theorem wrote_laterMergeFields {tnId : Nat} (htn : (tnId, resultNames) ∈ T) (names : List String)
    (o : Out) :
    WroteMembers p T o (names.map fun name => (name.toList, mergeEnum "None" 0))
      (names.foldl (fun o name => writeEnumWithTnref (some name.toList) tnId "None" 0 o) o) T := by
  induction names generalizing o with
  | nil => exact ⟨[], .nil, fun _ hT => ⟨.nil, hT⟩⟩
  | cons name names ih => exact (wrote_enumRef htn _ "None" rfl o).member.append (ih _)

/-- What the builder pushes for the members of a command that are no merge
    fields. -/
theorem writeCommand_eq (cmdsTn : Nat) (first : Option Nat) (o : Out) (c : PipelineCommandSpec) :
    writeCommand p cmdsTn (first, o) c =
      (let o := (openObj none o).pushStr "<MS>"
      let o := writeValueWith p (.string c.name) (some "Cmd".toList) o
      let o := writeValueWith p (.bool c.isScript) (some "IsScript".toList) o
      let o := writeValueWith p .null (some "UseLocalScope".toList) o
      let fields := writeMergeFields c.mergeErrorsToOutput first o
      let o := (c.args.foldl (writeArg p) (((((fields.2.alloc.2.pushStr "<Obj RefId=\"").push
        (intText fields.2.next)).pushStr "\" N=\"Args\"><TNRef RefId=\"").push
          (intText cmdsTn)).pushStr "\"/><LST>")).pushStr "</LST></Obj>"
      let o := ["MergeError", "MergeWarning", "MergeVerbose", "MergeDebug",
        "MergeInformation"].foldl
          (fun o name => writeEnumWithTnref (some name.toList) fields.1 "None" 0 o) o
      (some fields.1, o.pushStr "</MS></Obj>")) := by
  simp only [writeCommand, Out.alloc]

/-- Members whose names are literals are distinct, and none is the synthetic
    one, if that is so of the literals. -/
theorem keyed_of_names {props : List (Text × PsValue)} {names : List String}
    (h : props.map Prod.fst = names.map String.toList) (hnodup : names.Nodup)
    (hvalue : "_value" ∉ names) : IndexMap.Keyed props ∧ ∀ q ∈ props, q.1 ≠ valueKey := by
  have hinj : ∀ {a b : String}, a.toList = b.toList → a = b := String.toList_inj.mp
  constructor
  · unfold IndexMap.Keyed
    rw [h]
    exact hnodup.map_on fun _ _ _ _ heq => hinj heq
  · intro q hq heq
    have hmem : q.1 ∈ names.map String.toList := h ▸ List.mem_map_of_mem hq
    rcases List.mem_map.mp hmem with ⟨name, hname, hkey⟩
    refine hvalue ?_
    rw [← hinj (hkey.trans heq)]
    exact hname

/-- A command. It hands the id of the block of the merge fields on. -/
theorem wrote_command (hp : p.Lawful) {cmdsTn : Nat} {first : Option Nat}
    (hfirst : ∀ tn, first = some tn → (tn, resultNames) ∈ T)
    (htn : (cmdsTn, (commandList []).typeNames) ∈ T) {c : PipelineCommandSpec}
    (hc : ∀ arg ∈ c.args, arg.Valid) (o : Out) :
    ∃ T', (∀ b ∈ T, b ∈ T')
      ∧ (∀ tn, (writeCommand p cmdsTn (first, o) c).1 = some tn → (tn, resultNames) ∈ T')
      ∧ Wrote p T o (commandValue c) none (writeCommand p cmdsTn (first, o) c).2 T' := by
  let o1 := (openObj none o).pushStr "<MS>"
  let o2 := writeValueWith p (.string c.name) (some "Cmd".toList) o1
  let o3 := writeValueWith p (.bool c.isScript) (some "IsScript".toList) o2
  let o4 := writeValueWith p .null (some "UseLocalScope".toList) o3
  have hbefore : WroteMembers p T o1 [("Cmd".toList, .string c.name),
      ("IsScript".toList, .bool c.isScript), ("UseLocalScope".toList, .null)] o4 T :=
    ((wrote_value hp (by trivial) _ o1).member.snoc (wrote_value hp (by trivial) _ o2)).snoc
      (wrote_value hp (by trivial) _ o3)
  rcases wrote_mergeFields hp c.mergeErrorsToOutput hfirst o4 with ⟨T', hsub, hresult, hmerge⟩
  have hargs := wrote_args hp (hsub _ htn) hc (writeMergeFields c.mergeErrorsToOutput first o4).2
  have hlater := fun o => wrote_laterMergeFields (p := p) hresult
    ["MergeError", "MergeWarning", "MergeVerbose", "MergeDebug", "MergeInformation"] o
  have hall := ((hbefore.append hmerge).snoc hargs).append (hlater _)
  rw [writeCommand_eq]
  refine ⟨T', hsub, fun tn heq => ?_, ?_⟩
  · cases heq
    exact hresult
  · have hmembers : (commandMembers c).map Prod.fst = ["Cmd", "IsScript", "UseLocalScope",
        "MergeMyResult", "MergeToResult", "MergePreviousResults", "Args", "MergeError",
        "MergeWarning", "MergeVerbose", "MergeDebug", "MergeInformation"].map String.toList := rfl
    have hkeyed := keyed_of_names hmembers (by decide) (by decide)
    exact wrote_object hall hkeyed.1 hkeyed.2

/-- The commands. -/
theorem wrote_commands (hp : p.Lawful) {cmdsTn : Nat} {commands : List PipelineCommandSpec}
    (hcommands : ∀ c ∈ commands, ∀ arg ∈ c.args, arg.Valid) {first : Option Nat}
    (hfirst : ∀ tn, first = some tn → (tn, resultNames) ∈ T)
    (htn : (cmdsTn, (commandList []).typeNames) ∈ T) (o : Out) :
    ∃ T', WroteItems p T o (commands.map commandValue)
      (commands.foldl (writeCommand p cmdsTn) (first, o)).2 T' := by
  induction commands generalizing T first o with
  | nil => exact ⟨T, .nil⟩
  | cons c commands ih =>
      rcases wrote_command hp hfirst htn (hcommands c (List.mem_cons_self ..)) o
        with ⟨T1, hsub, hfirst', hcommand⟩
      rcases ih (fun c' hc' => hcommands c' (List.mem_cons_of_mem _ hc')) hfirst' (hsub _ htn)
        (writeCommand p cmdsTn (first, o) c).2 with ⟨T2, hrest⟩
      exact ⟨T2, WroteItems.cons hcommand hrest⟩

/-- The list of the commands is opened: its type names are the block of lists.
    The id of the block is taken before that of the list. -/
def openCmds (o : Out) : Out :=
  let (cmdsTn, o) := o.alloc
  let (id, o) := o.alloc
  let o := ((((o.pushStr "<Obj RefId=\"").push (intText id)).pushStr
    "\" N=\"Cmds\"><TN RefId=\"").push (intText cmdsTn)).pushStr "\"><T>"
  (o.pushStr commandListType).pushStr "</T><T>System.Object</T></TN><LST>"

/-- The tree of the list. -/
def cmdsNode (id : Nat) (ns : List Node) : Node :=
  .element "Obj" (("RefId", intText (nextRefId id)) :: nameAttrs (some "Cmds".toList))
    (typeNamesNodes (commandList []).typeNames id ++ [.element "LST" [] ns])

theorem openCmds_append (o : Out) (ns : List Node) (next : Nat) :
    ((openCmds o).append (ns, next)).pushStr "</LST></Obj>"
      = o.append ([cmdsNode o.next ns], next) := by
  have htext : ∀ s, escape s = Xml.escapeText (pwshEscape false s) := escapeInner_eq false
  have hid : ∀ n : Int, Xml.escapeText (intText n) = intText n :=
    fun n => escapeText_of_isToken _ (intText_isToken n)
  have hname : Xml.escapeText (pwshEscape true ['C', 'm', 'd', 's']) = ['C', 'm', 'd', 's'] := by
    decide
  have hlist : escape commandListType.toList = commandListType.toList :=
    escape_of_isVerbatim _ (by decide +kernel)
  have hobject : escape "System.Object".toList = "System.Object".toList :=
    escape_of_isVerbatim _ rfl
  rw [htext] at hlist hobject
  have hobject' : Xml.escapeText (pwshEscape false ['S', 'y', 's', 't', 'e', 'm', '.', 'O', 'b',
      'j', 'e', 'c', 't']) = ['S', 'y', 's', 't', 'e', 'm', '.', 'O', 'b', 'j', 'e', 'c', 't'] :=
    hobject
  refine Out.ext ?_ rfl
  simp [openCmds, cmdsNode, Out.append, Out.alloc, Node.render, renderList, Xml.renderAttrs,
    nameAttrs, typeNamesNodes, commandList, hid, hname, hlist, hobject']

/-- The commands, in their list. -/
theorem wrote_cmds (hp : p.Lawful) {commands : List PipelineCommandSpec}
    (hcommands : ∀ c ∈ commands, ∀ arg ∈ c.args, arg.Valid) (o : Out) :
    ∃ T', Wrote p T o (.object (commandList (commands.map commandValue))) (some "Cmds".toList)
      ((commands.foldl (writeCommand p o.next) (none, openCmds o)).2.pushStr "</LST></Obj>")
      T' := by
  have hnone : ∀ tn, (none : Option Nat) = some tn →
      (tn, resultNames) ∈ (o.next, (commandList []).typeNames) :: T := fun tn heq => by cases heq
  rcases wrote_commands hp hcommands hnone (List.mem_cons_self ..) (openCmds o)
    with ⟨T', ns, hext, hshares⟩
  generalize (commands.foldl (writeCommand p o.next) (none, openCmds o)).2 = o' at hext hshares ⊢
  have hout : o'.pushStr "</LST></Obj>" = o.append ([cmdsNode o.next ns], o'.next) := by
    rw [← openCmds_append]
    exact congrArg (fun out => Out.pushStr out "</LST></Obj>") hext.text
  have hnext : (openCmds o).next = nextRefId (nextRefId o.next) := rfl
  -- Both ids before the items are new.
  have hids : o'.next < lastId →
      nextRefId o.next = o.next + 1 ∧ nextRefId (nextRefId o.next) = o.next + 2
        ∧ o.next + 2 ≤ o'.next := by
    intro hlast
    have hle := hext.le hlast
    rw [hnext] at hle
    have hsecond : nextRefId (nextRefId o.next) = nextRefId o.next + 1 :=
      nextRefId_of_lt (Nat.lt_of_le_of_lt hle hlast)
    have hfirst : nextRefId o.next = o.next + 1 := nextRefId_of_lt (by omega)
    omega
  have hattrs : ObjAttrs (some "Cmds".toList) (nextRefId o.next)
      (("RefId", intText (nextRefId o.next)) :: nameAttrs (some "Cmds".toList)) := .idFirst
  have hnames : (commandList []).typeNames ≠ [] := List.cons_ne_nil _ _
  -- The list takes its own id, the one of its type names, and those of the items.
  have hlist : takenIds (eventsList [cmdsNode o.next ns])
      = intText (nextRefId o.next) :: intText o.next :: takenIds (eventsList ns) := by
    rw [cmdsNode, Xml.eventsList, Xml.eventsList, List.append_nil,
      takenIds_cons (Machine.refIdAttr_of_objAttrs hattrs), Xml.eventsList_append,
      takenIds_append, takenIds_typeNames hnames, Xml.eventsList, Xml.eventsList,
      List.append_nil, takenIds_element]
    rfl
  refine ⟨T', cmdsNode o.next ns, ⟨hout, ?_, fun hlast => ?_⟩, fun hlast hT => ?_⟩
  · have hcount := hext.count
    have hmin : nextRefId (nextRefId o.next) ≤ o.next + 2 :=
      Nat.le_trans (Nat.min_le_left _ _) (Nat.succ_le_succ (Nat.min_le_left _ _))
    rw [hlist, List.length_cons, List.length_cons]
    show o'.next ≤ _
    omega
  · rcases hids hlast with ⟨hfirst, hsecond, hle⟩
    have hperm := (hext.ids hlast).2
    rw [hnext, hsecond] at hperm
    refine ⟨by show o.next ≤ o'.next; omega, ?_⟩
    rw [hlist, hfirst]
    show (_ :: _ :: _).Perm (idRange o.next o'.next)
    rw [idRange_cons (by omega), idRange_cons (by omega)]
    -- The type names were numbered before the list that holds them.
    exact (List.Perm.swap _ _ _).trans ((hperm.cons _).cons _)
  · rcases hids hlast with ⟨hfirst, hsecond, hle⟩
    -- Every id known so far is below those of the items.
    have hyoung : Young ((o.next, (commandList []).typeNames) :: T) (openCmds o).next := by
      rw [hnext, hsecond]
      intro b hb
      rcases List.mem_cons.mp hb with rfl | hb
      · simp only []
        omega
      · have hb' := hT b hb
        omega
    have hitems := hshares hlast hyoung
    have hfresh : ∀ b ∈ T, b.1 ≠ o.next := fun b hb => Nat.ne_of_lt (hT b hb)
    exact ⟨.list hnames hfresh hattrs hitems.1, hitems.2⟩

/-- What the builder pushes for the commands, and what else the engine wants
    to know of them. -/
def writePowerShell (p : Platform) (commands : List PipelineCommandSpec) (o : Out) : Out :=
  let o := (openObj (some "PowerShell".toList) o).pushStr "<MS>"
  let o := writeValueWith p (.bool false) (some "IsNested".toList) o
  let o := writeValueWith p .null (some "ExtraCmds".toList) o
  let o := (commands.foldl (writeCommand p o.next) (none, openCmds o)).2.pushStr "</LST></Obj>"
  let o := writeValueWith p .null (some "History".toList) o
  let o := writeValueWith p (.bool false) (some "RedirectShellErrorOutputPipe".toList) o
  o.pushStr "</MS></Obj>"

theorem wrote_powerShell (hp : p.Lawful) {commands : List PipelineCommandSpec}
    (hcommands : ∀ c ∈ commands, ∀ arg ∈ c.args, arg.Valid) (o : Out) :
    ∃ T', Wrote p T o (.object ⟨powerShellMembers commands, [], none⟩) (some "PowerShell".toList)
      (writePowerShell p commands o) T' := by
  have hplain : ∀ {T : Blocks} {v : PsValue} (name : String) (o : Out), v.Valid →
      Wrote p T o v (some name.toList) (writeValueWith p v (some name.toList) o) T :=
    fun name o hv => wrote_value hp hv _ o
  have hbefore := (hplain (T := T) (v := .bool false) "IsNested"
    ((openObj (some "PowerShell".toList) o).pushStr "<MS>") trivial).member.snoc
      (hplain (v := .null) "ExtraCmds" _ trivial)
  rcases wrote_cmds (T := T) hp hcommands (writeValueWith p .null (some "ExtraCmds".toList)
    (writeValueWith p (.bool false) (some "IsNested".toList)
      ((openObj (some "PowerShell".toList) o).pushStr "<MS>"))) with ⟨T', hcmds⟩
  have hall := ((hbefore.snoc hcmds).snoc (hplain (v := .null) "History" _ trivial)).snoc
    (hplain (v := .bool false) "RedirectShellErrorOutputPipe" _ trivial)
  have hmembers : (powerShellMembers commands).map Prod.fst = ["IsNested", "ExtraCmds", "Cmds",
      "History", "RedirectShellErrorOutputPipe"].map String.toList := rfl
  have hkeyed := keyed_of_names hmembers (by decide) (by decide)
  exact ⟨T', wrote_object hall hkeyed.1 hkeyed.2⟩

end Outputs

theorem valid_psHostInfoNull : psHostInfoNull.Valid := by
  let members : List (Text × PsValue) := [("_isHostNull".toList, .bool true),
    ("_isHostUINull".toList, .bool true), ("_isHostRawUINull".toList, .bool true),
    ("_useRunspaceHost".toList, .bool true)]
  have hmembers : members.map Prod.fst
      = ["_isHostNull", "_isHostUINull", "_isHostRawUINull", "_useRunspaceHost"].map
        String.toList := rfl
  have hbools : members.map Prod.snd = List.replicate 4 (.bool true) := rfl
  refine (PsValue.valid_object _).mpr
    ⟨(keyed_of_names hmembers (by decide) (by decide)).1, fun q hq => ?_⟩
  have hq' : q.2 ∈ members.map Prod.snd := List.mem_map_of_mem hq
  rw [hbools] at hq'
  rw [List.eq_of_mem_replicate hq']
  trivial

/-- The builder writes the pipeline, with names shared. -/
theorem wrote_pipeline {p : Platform} (hp : p.Lawful) (noInput addToHistory addInvocationInfo : Bool)
    {commands : List PipelineCommandSpec}
    (hcommands : ∀ c ∈ commands, ∀ arg ∈ c.args, arg.Valid) :
    ∃ T' o', o'.text = buildCreatePipelineXml p noInput addToHistory addInvocationInfo commands
      ∧ Wrote p [] ⟨[], 0⟩ (pipelineValue noInput addToHistory addInvocationInfo commands) none o'
        T' := by
  let options := if addInvocationInfo
    then psEnum "System.Management.Automation.Runspaces.RemoteStreamOptions" "AddInvocationInfo" 15
    else psEnum "System.Management.Automation.Runspaces.RemoteStreamOptions" "None" 0
  let apartment := psEnum "System.Management.Automation.Runspaces.ApartmentState" "UNKNOWN" 2
  let write := fun (name : String) (v : PsValue) (o : Out) =>
    writeValueWith p v (some name.toList) o
  let o1 := (openObj none ⟨[], 0⟩).pushStr "<MS>"
  let o2 := write "HostInfo" psHostInfoNull (write "AddToHistory" (.bool addToHistory)
    (write "RemoteStreamOptions" options (write "ApartmentState" apartment
      (write "NoInput" (.bool noInput) o1))))
  have hoptions : options.Valid := by
    cases addInvocationInfo <;> exact valid_psEnum _ _ _
  have hplain : ∀ {T : Blocks} {v : PsValue} (name : String) (o : Out), v.Valid →
      Wrote p T o v (some name.toList) (write name v o) T := fun name o hv => wrote_value hp hv _ o
  have hbefore := ((((hplain (T := []) (v := .bool noInput) "NoInput" o1 trivial).member.snoc
    (hplain (v := apartment) "ApartmentState" _ (valid_psEnum _ _ _))).snoc
      (hplain "RemoteStreamOptions" _ hoptions)).snoc
        (hplain (v := .bool addToHistory) "AddToHistory" _ trivial)).snoc
          (hplain "HostInfo" _ valid_psHostInfoNull)
  rcases wrote_powerShell (T := []) hp hcommands o2 with ⟨T', hpowerShell⟩
  have hall := (hbefore.snoc hpowerShell).snoc (hplain (v := .bool false) "IsNested" _ trivial)
  have hmembers : (pipelineMembers noInput addToHistory addInvocationInfo commands).map Prod.fst
      = ["NoInput", "ApartmentState", "RemoteStreamOptions", "AddToHistory", "HostInfo",
        "PowerShell", "IsNested"].map String.toList := rfl
  have hkeyed := keyed_of_names hmembers (by decide) (by decide)
  refine ⟨T', _, ?_, wrote_object hall hkeyed.1 hkeyed.2⟩
  cases addInvocationInfo <;> rfl

/-- The document of a pipeline is faithful. It takes the ids from zero on, each
    once, and is decoded as what the encoder would write for the pipeline: its
    options, and its commands in order with their names, flags and arguments,
    each with the type names that it needs. -/
theorem create_pipeline_faithful (p : Platform) (hp : p.Lawful)
    (noInput addToHistory addInvocationInfo : Bool) (commands : List PipelineCommandSpec)
    (hcommands : ∀ c ∈ commands, ∀ arg ∈ c.args, arg.Valid) :
    let pipeline := pipelineValue noInput addToHistory addInvocationInfo commands
    let xml := buildCreatePipelineXml p noInput addToHistory addInvocationInfo commands
    ∃ doc : Node, xml = doc.render ∧ ((takenIds doc.events).length < lastId →
      (takenIds doc.events).Perm (idRange 0 (takenIds doc.events).length)
        ∧ (takenIds doc.events).Nodup
        ∧ parseClixml p xml = (if pipeline.nest ≤ MAX_NESTING_DEPTH then .ok [pipeline.norm]
          else .error nestedTooDeep)
        ∧ parseClixml p xml = parseClixml p (toClixml p pipeline)) := by
  intro pipeline xml
  rcases wrote_pipeline hp noInput addToHistory addInvocationInfo hcommands
    with ⟨T', o', htext, doc, hext, hshares⟩
  have hxml : xml = doc.render := by
    show buildCreatePipelineXml .. = _
    rw [← htext, hext.text]
    exact List.append_nil _
  have hevents : eventsList [doc] = doc.events := List.append_nil _
  refine ⟨doc, hxml, fun hfew => ?_⟩
  have hcount := hext.count
  have hids := hext.ids
  rw [hevents] at hcount hids
  have hlast : o'.next < lastId := by
    simp only [Nat.zero_add] at hcount
    omega
  rcases hids hlast with ⟨_, hperm⟩
  have hlength : (takenIds doc.events).length = o'.next := by
    rw [hperm.length_eq, idRange, List.length_map, List.length_range']
    rfl
  have hshared := (hshares hlast fun b hb => absurd hb List.not_mem_nil).1
  refine ⟨?_, hperm.nodup_iff.mpr (nodup_idRange _ _), ?_, ?_⟩
  · rw [hlength]
    exact hperm
  · rw [hxml]
    exact parseClixml_shares hp hshared
  · rw [hxml]
    exact parseClixml_shares_eq hp hshared

/-- A command with an argument of each kind. -/
def dirCommand : PipelineCommandSpec :=
  { name := "dir".toList, isScript := false, mergeErrorsToOutput := true
    args := [.positional (.list [.string "a".toList, .null]),
      .named "Depth".toList (.i32 2), .switch "Force".toList] }

theorem create_pipeline_faithful_dir :
    let pipeline := pipelineValue true false true [dirCommand, dirCommand]
    let xml := buildCreatePipelineXml Platform.basic true false true [dirCommand, dirCommand]
    ∃ doc : Node, xml = doc.render ∧ ((takenIds doc.events).length < lastId →
      (takenIds doc.events).Perm (idRange 0 (takenIds doc.events).length)
        ∧ (takenIds doc.events).Nodup
        ∧ parseClixml Platform.basic xml = (if pipeline.nest ≤ MAX_NESTING_DEPTH
          then .ok [pipeline.norm] else .error nestedTooDeep)
        ∧ parseClixml Platform.basic xml
          = parseClixml Platform.basic (toClixml Platform.basic pipeline)) :=
  create_pipeline_faithful Platform.basic Platform.basic_lawful true false true
    [dirCommand, dirCommand] (by
      have hargs : ∀ arg ∈ dirCommand.args, arg.Valid := by
        refine List.forall_mem_cons.mpr ⟨(PsValue.valid_list _).mpr ?_,
          List.forall_mem_cons.mpr ⟨trivial, List.forall_mem_cons.mpr ⟨trivial, ?_⟩⟩⟩
        · exact List.forall_mem_cons.mpr ⟨trivial, List.forall_mem_cons.mpr
            ⟨trivial, fun v hv => absurd hv List.not_mem_nil⟩⟩
        · exact fun arg harg => absurd harg List.not_mem_nil
      intro c hc
      rcases List.mem_cons.mp hc with rfl | hc
      · exact hargs
      · rw [List.mem_singleton.mp hc]
        exact hargs)

end Psrp
