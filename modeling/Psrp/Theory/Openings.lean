import Psrp.Theory.CreatePipeline

/-!
# How Documents Begin

Everything the program writes begins with a tag.

A writer only adds to what there is (`Grows`), and a writer of a value adds a
tag first (`Starts`). So no document begins with a byte order mark, on any
platform, and a message that carries one is read back as it was sent.

## Main definitions

* `Grows`, `Starts`: What a writer does to the text so far.

## Theorems

* `toClixml_begins`, `buildCreatePipelineXml_begins`: The first character of a
  document.
-/

namespace Psrp

variable {p : Platform} {o o' o'' : Out}

/-- Something may have been added to the text. -/
def Grows (o o' : Out) : Prop := o.text <+: o'.text

/-- A tag was added to the text, and perhaps more. -/
def Starts (o o' : Out) : Prop := ∃ rest, o'.text = o.text ++ '<' :: rest

theorem Grows.refl (o : Out) : Grows o o := List.prefix_refl _

theorem Grows.trans (h : Grows o o') (h' : Grows o' o'') : Grows o o'' := List.IsPrefix.trans h h'

/-- What is written goes at the end. -/
theorem Grows.pushed (h : Grows o o') (s : Text) : Grows o (o'.push s) :=
  h.trans (List.prefix_append _ _)

theorem Grows.str (h : Grows o o') (s : String) : Grows o (o'.pushStr s) := h.pushed s.toList

/-- A tag is something. -/
theorem Starts.grows (h : Starts o o') : Grows o o' := by
  rcases h with ⟨rest, heq⟩
  exact ⟨_, heq.symm⟩

/-- What comes first starts the text. -/
theorem Starts.trans (h : Starts o o') (h' : Grows o' o'') : Starts o o'' := by
  rcases h with ⟨rest, heq⟩
  rcases h' with ⟨more, hmore⟩
  refine ⟨rest ++ more, ?_⟩
  rw [← hmore, heq, List.append_assoc, List.cons_append]

theorem Starts.pushed (h : Starts o o') (s : Text) : Starts o (o'.push s) :=
  h.trans ((Grows.refl o').pushed s)

theorem Starts.str (h : Starts o o') (s : String) : Starts o (o'.pushStr s) := h.pushed s.toList

/-- The first piece of a tag. -/
theorem starts_of_tag {s : String} {rest : Text} (h : s.toList = '<' :: rest) (o : Out) :
    Starts o (o.pushStr s) := by
  refine ⟨rest, ?_⟩
  rw [pushStr_text, h]

/-- A scalar starts with its tag. -/
theorem starts_writeSimple (tag : String) (body : Text) (name : Option Text) (selfClose : Bool)
    (o : Out) : Starts o (writeSimple tag body name selfClose o) := by
  have hopen := starts_of_tag (s := "<") rfl o
  unfold writeSimple
  by_cases hclose : selfClose = true
  · rw [if_pos hclose]
    cases name with
    | none => exact (hopen.str _).str _
    | some n => exact (((hopen.str _).str _).pushed _).str _
  · rw [if_neg hclose]
    cases name with
    | none => exact ((((hopen.str _).str _).pushed _).str _ |>.str _).str _
    | some n => exact ((((((hopen.str _).str _).pushed _).str _).pushed _).str _ |>.str _).str _

/-- So does an object. -/
theorem starts_openObj (name : Option Text) (o : Out) : Starts o (openObj name o) := by
  cases name with
  | none =>
      have hopen : Starts o (o.alloc.2.pushStr "<Obj RefId=\"") :=
        starts_of_tag rfl o.alloc.2
      exact (hopen.pushed _).str _
  | some n =>
      have hopen : Starts o (o.alloc.2.pushStr "<Obj N=\"") := starts_of_tag rfl o.alloc.2
      exact (((hopen.pushed _).str _).pushed _).str _

/-- The parts of an object are written one after the other. -/
theorem grows_writeTypeNames (typeNames : List Text) (o : Out) :
    Grows o (writeTypeNames typeNames o) := by
  have hfold : ∀ o' : Out, Grows o o' → Grows o (typeNames.foldl
      (fun o tn => ((o.pushStr "<T>").push (escape tn)).pushStr "</T>") o') := by
    induction typeNames with
    | nil => exact fun o' h => h
    | cons tn rest ih => exact fun o' h => ih _ (((h.str _).pushed _).str _)
  unfold writeTypeNames
  by_cases hnames : typeNames = []
  · rw [if_pos hnames]
    exact .refl o
  · rw [if_neg hnames]
    have hopen : Grows o (((o.alloc.2.pushStr "<TN RefId=\"").push (intText o.alloc.1)).pushStr
        "\">") := (((Grows.refl o).str _).pushed _).str _
    exact (hfold _ hopen).str _

theorem grows_writeToString (toString : Option Text) (o : Out) :
    Grows o (writeToString toString o) := by
  cases toString with
  | none => exact .refl o
  | some ts => exact (((Grows.refl o).str _).pushed _).str _

/-- The writer of a value begins with a tag, under any name. -/
def StartsValue (p : Platform) (v : PsValue) : Prop :=
  ∀ name o, Starts o (writeValueWith p v name o)

/-- The writers of what a container holds do, too. -/
def StartsBelow (p : Platform) : PsValue → Prop
  | .list items => ∀ v ∈ items, StartsValue p v
  | .dict entries => ∀ e ∈ entries, StartsValue p e.1 ∧ StartsValue p e.2
  | _ => True

/-- Items are written in order, by induction on them. -/
theorem grows_writeItems {items : List PsValue} (h : ∀ v ∈ items, StartsValue p v) (o : Out) :
    Grows o (writeItems p items o) := by
  induction items generalizing o with
  | nil => exact .refl o
  | cons v items ih =>
      have hv := (h v List.mem_cons_self none o).grows
      exact hv.trans (ih (fun w hw => h w (List.mem_cons_of_mem v hw)) _)

/-- Entries are written in order, key and value. -/
theorem grows_writeEntries {entries : List (PsValue × PsValue)}
    (h : ∀ e ∈ entries, StartsValue p e.1 ∧ StartsValue p e.2) (o : Out) :
    Grows o (writeEntries p entries o) := by
  induction entries generalizing o with
  | nil => exact .refl o
  | cons e entries ih =>
      rcases e with ⟨k, v⟩
      have hentry := h (k, v) List.mem_cons_self
      have hk := ((Grows.refl o).str "<En>").trans (hentry.1 (some "Key".toList) _).grows
      have hv := hk.trans (hentry.2 (some "Value".toList) _).grows
      exact (hv.str "</En>").trans (ih (fun e he => h e (List.mem_cons_of_mem _ he)) _)

/-- The bare value of an object comes first. -/
theorem grows_writeValueProp {props : List (Text × PsValue)}
    (h : ∀ q ∈ props, StartsValue p q.2 ∧ StartsBelow p q.2) (o : Out) :
    Grows o (writeValueProp p props o) := by
  induction props generalizing o with
  | nil => exact .refl o
  | cons q props ih =>
      rcases q with ⟨k, v⟩
      unfold writeValueProp
      by_cases hk : k = valueKey
      · rw [if_pos hk]
        have hv := h (k, v) List.mem_cons_self
        cases v with
        | list items => exact (((Grows.refl o).str _).trans (grows_writeItems hv.2 _)).str _
        | dict entries => exact (((Grows.refl o).str _).trans (grows_writeEntries hv.2 _)).str _
        | _ => exact (hv.1 none o).grows
      · rw [if_neg hk]
        exact ih (fun q hq => h q (List.mem_cons_of_mem _ hq)) o

/-- The properties follow. -/
theorem grows_writeOtherProps {props : List (Text × PsValue)}
    (h : ∀ q ∈ props, StartsValue p q.2) (o : Out) : Grows o (writeOtherProps p props o) := by
  induction props generalizing o with
  | nil => exact .refl o
  | cons q props ih =>
      rcases q with ⟨k, v⟩
      have hrest := ih fun q hq => h q (List.mem_cons_of_mem _ hq)
      unfold writeOtherProps
      by_cases hk : k = valueKey
      · rw [if_pos hk]
        exact hrest o
      · rw [if_neg hk]
        exact (h (k, v) List.mem_cons_self (some k) o).grows.trans (hrest _)

/-- Every writer of a value begins with a tag. -/
theorem starts_writeValueWith (v : PsValue) : StartsValue p v := by
  suffices hboth : StartsValue p v ∧ StartsBelow p v from hboth.1
  -- Whatever is written first begins with a bracket, and the rest only adds to it.
  induction v using PsValue.induction with
  | leaf v hv =>
      refine ⟨fun name o => ?_, by cases v <;> trivial⟩
      rcases simpleElement_some (p := p) v hv with ⟨⟨tag, body, selfClose⟩, hsimple⟩
      rw [writeValueWith_leaf v hv, hsimple]
      exact starts_writeSimple tag body name selfClose o
  | list items ih =>
      have hitems : ∀ v ∈ items, StartsValue p v := fun v hv => (ih v hv).1
      refine ⟨fun name o => ?_, hitems⟩
      have hbody := ((Grows.refl (openObj name o)).str "<LST>").trans (grows_writeItems hitems _)
      exact (starts_openObj name o).trans ((hbody.str _).str _)
  | dict entries ih =>
      have hentries : ∀ e ∈ entries, StartsValue p e.1 ∧ StartsValue p e.2 :=
        fun e he => ⟨(ih e he).1.1, (ih e he).2.1⟩
      refine ⟨fun name o => ?_, hentries⟩
      have hbody := ((Grows.refl (openObj name o)).str "<DCT>").trans
        (grows_writeEntries hentries _)
      exact (starts_openObj name o).trans ((hbody.str _).str _)
  | object obj ih =>
      rcases obj with ⟨props, typeNames, toString⟩
      refine ⟨fun name o => ?_, trivial⟩
      have hnames := (starts_openObj name o).trans
        ((grows_writeTypeNames typeNames _).trans (grows_writeToString toString _))
      have hvalue := hnames.trans (grows_writeValueProp ih _)
      unfold writeValueWith
      simp only []
      split
      · exact hvalue.str _
      · refine (hvalue.trans ?_).str _
        exact (((Grows.refl _).str _).trans (grows_writeOtherProps (fun q hq => (ih q hq).1) _)).str _

/-- The document of a value begins with a tag. -/
theorem toClixml_begins (p : Platform) (v : PsValue) : ∃ rest, toClixml p v = '<' :: rest := by
  rcases starts_writeValueWith (p := p) v none ⟨[], 0⟩ with ⟨rest, hrest⟩
  exact ⟨rest, hrest⟩

section CreatePipeline

/-- The pieces of the document that creates a pipeline. -/
theorem grows_writeEnumWithTnref (name : Option Text) (tnRefId : Nat) (toString : String)
    (value : Int) (o : Out) : Grows o (writeEnumWithTnref name tnRefId toString value o) := by
  have hopen := (((starts_openObj name o).grows.str "<TNRef RefId=\"").pushed (intText tnRefId)).str
    "\"/>"
  have htext := ((hopen.str "<ToString>").pushed (escape toString.toList)).str "</ToString>"
  exact (((htext.str _).pushed _).str _).str _

theorem grows_writeEnumFirstInGroup (name : Option Text) (enumType toString : String) (value : Int)
    (o : Out) : Grows o (writeEnumFirstInGroup name enumType toString value o).2 := by
  have halloc : Grows o (openObj name o).alloc.2 := (starts_openObj name o).grows
  have hnames := (((((halloc.str "<TN RefId=\"").pushed (intText (openObj name o).alloc.1)).str
    "\">").str "<T>").pushed (escape enumType.toList)).str
      "</T><T>System.Enum</T><T>System.ValueType</T><T>System.Object</T>"
  have htext := (((hnames.str "</TN>").str "<ToString>").pushed (escape toString.toList)).str
    "</ToString>"
  exact (((htext.str _).pushed _).str _).str _

/-- The merge flags, the first of which declares its type names. -/
theorem grows_writeMergeFields (merge : Bool) (firstPrtTn : Option Nat) (o : Out) :
    Grows o (writeMergeFields merge firstPrtTn o).2 := by
  have hlater : ∀ {o' : Out} (tnRef : Nat) (toName : String) (toVal : Int), Grows o o' → Grows o
      (writeEnumWithTnref (some "MergePreviousResults".toList) tnRef "None" 0
        (writeEnumWithTnref (some "MergeToResult".toList) tnRef toName toVal o')) :=
    fun tnRef toName toVal h => (h.trans (grows_writeEnumWithTnref _ _ _ _ _)).trans
      (grows_writeEnumWithTnref _ _ _ _ _)
  cases merge with
  | true =>
      cases firstPrtTn with
      | none => exact hlater _ _ _ (grows_writeEnumFirstInGroup ..)
      | some tnRef => exact hlater _ _ _ (grows_writeEnumWithTnref ..)
  | false =>
      cases firstPrtTn with
      | none => exact hlater _ _ _ (grows_writeEnumFirstInGroup ..)
      | some tnRef => exact hlater _ _ _ (grows_writeEnumWithTnref ..)

/-- An argument, with its name and value. -/
theorem grows_writeArg (o : Out) (arg : PipelineArgSpec) : Grows o (writeArg p o arg) := by
  have hopen := (starts_openObj none o).grows.str "<MS>"
  have hvalue : ∀ name value : PsValue, Grows o ((writeValueWith p value (some "V".toList)
      (writeValueWith p name (some "N".toList) ((openObj none o).pushStr "<MS>"))).pushStr
        "</MS></Obj>") := fun name value =>
    ((hopen.trans (starts_writeValueWith name _ _).grows).trans
      (starts_writeValueWith value _ _).grows).str _
  cases arg with
  | named name value => exact hvalue _ _
  | positional value => exact hvalue _ _
  | switch name => exact hvalue _ _

/-- A writer that only adds, over and over. -/
theorem grows_foldl {α : Type} {f : Out → α → Out} (hf : ∀ o a, Grows o (f o a)) (as : List α)
    (o : Out) : Grows o (as.foldl f o) := by
  induction as generalizing o with
  | nil => exact .refl o
  | cons a as ih => exact (hf o a).trans (ih _)

/-- A command, with all of its fields. -/
theorem grows_writeCommand (cmdsTn : Nat) (first : Option Nat) (o : Out) (c : PipelineCommandSpec) :
    Grows o (writeCommand p cmdsTn (first, o) c).2 := by
  have hopen := (starts_openObj none o).grows.str "<MS>"
  have hfields := ((hopen.trans (starts_writeValueWith (p := p) (.string c.name)
    (some "Cmd".toList) _).grows).trans (starts_writeValueWith (p := p) (.bool c.isScript)
      (some "IsScript".toList) _).grows).trans (starts_writeValueWith (p := p) .null
        (some "UseLocalScope".toList) _).grows
  have hmerge := hfields.trans (grows_writeMergeFields c.mergeErrorsToOutput first _)
  rw [writeCommand_eq]
  simp only []
  generalize writeMergeFields c.mergeErrorsToOutput first _ = merged at hmerge ⊢
  rcases merged with ⟨tnRef, o'⟩
  have halloc : Grows o o'.alloc.2 := hmerge
  have hargs := ((((halloc.str "<Obj RefId=\"").pushed (intText o'.next)).str
    "\" N=\"Args\"><TNRef RefId=\"").pushed (intText cmdsTn)).str "\"/><LST>"
  have hlist := (hargs.trans (grows_foldl (f := writeArg p) grows_writeArg c.args _)).str "</LST></Obj>"
  exact (hlist.trans (grows_foldl (fun o name => grows_writeEnumWithTnref _ _ _ _ _) _ _)).str _

/-- Commands are written in order. -/
theorem grows_commands (cmdsTn : Nat) (commands : List PipelineCommandSpec)
    (written : Option Nat × Out) :
    Grows written.2 (commands.foldl (writeCommand p cmdsTn) written).2 := by
  induction commands generalizing written with
  | nil => exact .refl _
  | cons c commands ih =>
      exact (grows_writeCommand cmdsTn written.1 written.2 c).trans (ih _)

theorem grows_openCmds (o : Out) : Grows o (openCmds o) := by
  have halloc : Grows o o.alloc.2.alloc.2 := .refl o
  exact ((((((halloc.str _).pushed _).str _).pushed _).str _).str _).str _

theorem grows_writePowerShell (commands : List PipelineCommandSpec) (o : Out) :
    Grows o (writePowerShell p commands o) := by
  have hvalue : ∀ {o' : Out} (v : PsValue) (name : Option Text), Grows o o' →
      Grows o (writeValueWith p v name o') :=
    fun v name h => h.trans (starts_writeValueWith v name _).grows
  have hfields := hvalue .null (some "ExtraCmds".toList) (hvalue (.bool false)
    (some "IsNested".toList) ((starts_openObj (some "PowerShell".toList) o).grows.str "<MS>"))
  unfold writePowerShell
  simp only []
  generalize writeValueWith p .null (some "ExtraCmds".toList) _ = o' at hfields ⊢
  have hcmds := ((hfields.trans (grows_openCmds o')).trans
    (grows_commands (p := p) o'.next commands (none, _))).str "</LST></Obj>"
  exact (hvalue _ _ (hvalue _ _ hcmds)).str _

/-- The document of a pipeline begins with a tag. -/
theorem buildCreatePipelineXml_begins (p : Platform) (noInput addToHistory addInvocationInfo : Bool)
    (commands : List PipelineCommandSpec) :
    ∃ rest, buildCreatePipelineXml p noInput addToHistory addInvocationInfo commands
      = '<' :: rest := by
  let start : Out := ⟨[], 0⟩
  let write := fun (name : String) (v : PsValue) (o : Out) =>
    writeValueWith p v (some name.toList) o
  have hvalue : ∀ {o : Out} (name : String) (v : PsValue), Starts start o →
      Starts start (write name v o) := fun name v h => h.trans (starts_writeValueWith v _ _).grows
  -- The document opens with a tag; all else comes after it.
  have hopen : Starts start (((start.alloc.2.pushStr "<Obj RefId=\"").push
      (intText start.alloc.1)).pushStr "\"><MS>") :=
    ((starts_of_tag (s := "<Obj RefId=\"") rfl start.alloc.2).pushed _).str _
  have hdoc : ∀ options apartment : PsValue, Starts start
      ((write "IsNested" (.bool false) (writePowerShell p commands (write "HostInfo" psHostInfoNull
        (write "AddToHistory" (.bool addToHistory) (write "RemoteStreamOptions" options
          (write "ApartmentState" apartment (write "NoInput" (.bool noInput)
            (((start.alloc.2.pushStr "<Obj RefId=\"").push (intText start.alloc.1)).pushStr
              "\"><MS>")))))))).pushStr "</MS></Obj>") := by
    intro options apartment
    have hfields := hvalue "HostInfo" psHostInfoNull (hvalue "AddToHistory" (.bool addToHistory)
      (hvalue "RemoteStreamOptions" options (hvalue "ApartmentState" apartment
        (hvalue "NoInput" (.bool noInput) hopen))))
    exact (hvalue "IsNested" (.bool false) (hfields.trans (grows_writePowerShell commands _))).str _
  -- The flag chooses only what one of the fields holds.
  cases addInvocationInfo with
  | true =>
      rcases hdoc (psEnum "System.Management.Automation.Runspaces.RemoteStreamOptions"
        "AddInvocationInfo" 15) (psEnum "System.Management.Automation.Runspaces.ApartmentState"
          "UNKNOWN" 2) with ⟨rest, hrest⟩
      exact ⟨rest, hrest⟩
  | false =>
      rcases hdoc (psEnum "System.Management.Automation.Runspaces.RemoteStreamOptions"
        "None" 0) (psEnum "System.Management.Automation.Runspaces.ApartmentState"
          "UNKNOWN" 2) with ⟨rest, hrest⟩
      exact ⟨rest, hrest⟩

end CreatePipeline

end Psrp
