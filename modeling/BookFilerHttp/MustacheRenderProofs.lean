import BookFilerHttp.MustacheTreeProofs

/-! # Rendering Mustache templates

    The renderer of the template library: a walk over the components of a template
    with a stack of data, a buffer for the current line, and an error text.  A section
    is walked once for each item of its list, a partial is parsed when the walk
    reaches it, and an error in a partial stops the walk of the innermost section.
    Partials may name each other, so the walk need not end: `depth` bounds how deep
    they nest.  Lambdas are left out.

    `Meaning` says what a template stands for without any buffer: a log of texts, line
    ends and section marks.  `renderChildren_meaning` is the refinement, and
    `render_layout` its consequence: the output is the log laid out in lines, less the
    lines that have a section mark and nothing but blanks. -/

namespace MustacheRender

open ByteString Mustache MustacheTree

/-! ## Data -/

/-- `basic_data`; a partial is the text its function returns. -/
inductive Data where
  | object (members : List (Bytes × Data))
  | string (s : Bytes)
  | list (items : List Data)
  | bool (b : Bool)
  | partialText (s : Bytes)

/-- `basic_data::get`. -/
def Data.get (name : Bytes) : Data → Option Data
  | .object members => members.lookup name
  | _ => none

/-- `is_false() || is_empty_list()`. -/
def Data.isFalsy : Data → Bool
  | .bool b => !b
  | .list items => items.isEmpty
  | _ => false

/-- `context`: the innermost data first. -/
abbrev Context := List Data

/-- The members along a path. -/
def Data.getPath (names : List Bytes) (d : Data) : Option Data :=
  names.foldlM (fun d n => d.get n) d

/-- `context::get`. -/
def Context.get (ctx : Context) (name : Bytes) : Option Data :=
  if name = [46] then ctx.head?
  else if 46 ∉ name then ctx.findSome? (Data.get name)
  else ctx.findSome? (Data.getPath (splitDots [] name))

/-- `context::get_partial`, and the text of what it finds. -/
def Context.getPartial (ctx : Context) (name : Bytes) : Option Bytes :=
  match ctx.findSome? (Data.get name) with
  | some (.partialText s) => some s
  | some (.string s) => some s
  | _ => none

/-! ## The renderer -/

/-- `line_buffer_state`. -/
structure LineBuffer where
  data : Bytes := []
  containedSectionTag : Bool := false
  deriving DecidableEq

/-- `is_empty_or_contains_only_whitespace`. -/
def isBlank (s : Bytes) : Bool := s.all fun ch => ch == 32 || ch == 9

/-- What the handler has been given, the line buffer and `error_message_`. -/
structure Rendering where
  output : Bytes := []
  line : LineBuffer := {}
  error : Option ParseError := none
  deriving DecidableEq

/-- `render_current_line`; `text` is that of the component at the end of the line. -/
def Rendering.renderCurrentLine (r : Rendering) (text : Bytes) : Rendering :=
  if r.line.containedSectionTag && isBlank r.line.data then { r with line := {} }
  else { r with output := r.output ++ r.line.data ++ text, line := {} }

/-- `render_result`. -/
def Rendering.renderResult (r : Rendering) (text : Bytes) : Rendering :=
  { r with line := ⟨r.line.data ++ text, r.line.containedSectionTag⟩ }

/-- `ctx.line_buffer.contained_section_tag = true`. -/
def Rendering.mark (r : Rendering) : Rendering :=
  { r with line := ⟨r.line.data, true⟩ }

def Rendering.withError (r : Rendering) (e : Option ParseError) : Rendering :=
  ⟨r.output, r.line, e⟩

/-- The contexts in which `render_component` has the children of a section rendered:
    one for each item of a list, one for another value, and none if the section is
    left out. -/
def sectionContexts (ctx : Context) (t : Tag) : List Context :=
  match t.kind, ctx.get t.name with
  | .sectionBegin, some (.list items) => items.map (· :: ctx)
  | .sectionBegin, some var => if var.isFalsy then [] else [var :: ctx]
  | .sectionBeginInverted, none => [ctx]
  | .sectionBeginInverted, some var => if var.isFalsy then [var :: ctx] else []
  | _, _ => []

/-- What `render_variable` adds for a string; a tag of another value adds nothing. -/
def variableText (escaped : Bool) : Option Data → Bytes
  | some (.string s) => if escaped then htmlEscape s else s
  | _ => []

section Walk

variable (renderPartial : Bytes → Context → Rendering → Option Rendering)

/-- `render_component` for a component without children, and whether the walk stops. -/
def renderLeaf (ctx : Context) (r : Rendering) : Leaf → Option (Rendering × Bool)
  | .text t _ => some (if isNewline t then r.renderCurrentLine t else r.renderResult t, false)
  | .tag t =>
      match t.tag.kind with
      | .variable => some (r.renderResult (variableText true (ctx.get t.tag.name)), false)
      | .unescapedVariable =>
          some (r.renderResult (variableText false (ctx.get t.tag.name)), false)
      | .partialTag =>
          match ctx.getPartial t.tag.name with
          | none => some (r, false)
          | some text =>
              -- the template of the partial has an error message of its own
              (renderPartial text ctx (r.withError none)).map fun r' =>
                if r'.error = none then (r'.withError r.error, false) else (r', true)
      | _ => some (r, false)

/-- `walk_children` with `render_component`: a section swallows a stop of its
    children. -/
def renderChildren : Components → Context → Rendering → Option (Rendering × Bool)
  | .nil, _, r => some (r, false)
  | .leaf l rest, ctx, r =>
      (renderLeaf renderPartial ctx r l).bind fun r' =>
        if r'.2 then some r' else renderChildren rest ctx r'.1
  | .node t body _ rest, ctx, r =>
      ((sectionContexts ctx t.tag).foldlM
        (fun r inner => (renderChildren body inner r.mark).map fun r' => r'.1.mark) r).bind
          fun r' => renderChildren rest ctx r'

end Walk

/-- A partial: it is parsed and its components are rendered; none if they nest deeper
    than `depth`. -/
def renderPartial : Nat → Bytes → Context → Rendering → Option Rendering
  | 0, _, _, _ => none
  | depth + 1, text, ctx, r =>
      match MustacheTree.parse text with
      | .error e => some (r.withError (some e))
      | .ok cs => (renderChildren (renderPartial depth) cs ctx r).map Prod.fst

/-- `render` of a parsed template. -/
def render (depth : Nat) (cs : Components) (data : Data) : Option Bytes :=
  (renderChildren (renderPartial depth) cs [data] {}).map
    fun r => (r.1.renderCurrentLine []).output

/-- A template constructed and rendered. -/
def mustache (depth : Nat) (input : Bytes) (data : Data) : Option Bytes :=
  match MustacheTree.parse input with
  | .error _ => some []
  | .ok cs => render depth cs data

/-! ## What a template stands for -/

/-- What the walk meets. -/
inductive Event where
  | text (t : Bytes)
  | newline (t : Bytes)
  | mark
  deriving DecidableEq

/-- The events of a part of a template, the last error met, and whether it stops the
    walk. -/
structure Meaning where
  log : List Event := []
  error : Option ParseError := none
  stopped : Bool := false
  deriving DecidableEq

/-- One part after another. -/
def Meaning.append (a b : Meaning) : Meaning :=
  ⟨a.log ++ b.log, b.error.or a.error, b.stopped⟩

/-- The children of a section, between its marks. -/
def Meaning.enclosed (m : Meaning) : Meaning :=
  ⟨.mark :: (m.log ++ [.mark]), m.error, false⟩

section Meaning

variable (meaningOfPartial : Bytes → Context → Option Meaning)

def meaningOfLeaf (ctx : Context) : Leaf → Option Meaning
  | .text t _ => some { log := [if isNewline t then .newline t else .text t] }
  | .tag t =>
      match t.tag.kind with
      | .variable => some { log := [.text (variableText true (ctx.get t.tag.name))] }
      | .unescapedVariable =>
          some { log := [.text (variableText false (ctx.get t.tag.name))] }
      | .partialTag =>
          match ctx.getPartial t.tag.name with
          | none => some {}
          | some text =>
              (meaningOfPartial text ctx).map fun m => ⟨m.log, m.error, m.error.isSome⟩
      | _ => some {}

def meaning : Components → Context → Option Meaning
  | .nil, _ => some {}
  | .leaf l rest, ctx =>
      (meaningOfLeaf meaningOfPartial ctx l).bind fun m =>
        if m.stopped then some m else (meaning rest ctx).map m.append
  | .node t body _ rest, ctx =>
      ((sectionContexts ctx t.tag).foldlM
        (fun (m : Meaning) inner => (meaning body inner).map fun m' => m.append m'.enclosed) {}).bind
          fun m => (meaning rest ctx).map m.append

end Meaning

def meaningOfPartial : Nat → Bytes → Context → Option Meaning
  | 0, _, _ => none
  | depth + 1, text, ctx =>
      match MustacheTree.parse text with
      | .error e => some { error := some e }
      | .ok cs => meaning (meaningOfPartial depth) cs ctx

/-- The text of the events of a line. -/
def lineText (line : List Event) : Bytes :=
  line.flatMap fun
    | .text t => t
    | _ => []

/-- A line with a section mark and nothing but blanks is left out, its end too. -/
def showLine (line : List Event) (newline : Bytes) : Bytes :=
  if .mark ∈ line ∧ isBlank (lineText line) then [] else lineText line ++ newline

/-- A log, line by line. -/
def layoutFrom (line : List Event) : List Event → Bytes
  | [] => showLine line []
  | .newline t :: rest => showLine line t ++ layoutFrom [] rest
  | e :: rest => layoutFrom (line ++ [e]) rest

def layout (log : List Event) : Bytes := layoutFrom [] log

/-! ## The renderer keeps a log -/

/-- One event for the renderer. -/
def Rendering.event (r : Rendering) : Event → Rendering
  | .text t => r.renderResult t
  | .newline t => r.renderCurrentLine t
  | .mark => r.mark

/-- A whole part. -/
def Rendering.absorb (r : Rendering) (m : Meaning) : Rendering :=
  (m.log.foldl Rendering.event r).withError (m.error.or r.error)

/-- An error beside the text does not change how the text grows. -/
theorem event_withError (r : Rendering) (e : Option ParseError) (ev : Event) :
    (r.withError e).event ev = (r.event ev).withError e := by
  cases ev with
  | text t => rfl
  | mark => rfl
  | newline t =>
      show (if r.line.containedSectionTag && isBlank r.line.data then _ else _)
        = (Rendering.renderCurrentLine r t).withError e
      rw [Rendering.renderCurrentLine]
      split <;> rfl

theorem foldl_withError (log : List Event) (e : Option ParseError) :
    ∀ r : Rendering,
      log.foldl Rendering.event (r.withError e)
        = (log.foldl Rendering.event r).withError e := by
  induction log with
  | nil => exact fun r => rfl
  | cons ev log ih =>
      intro r
      rw [List.foldl_cons, event_withError, ih, List.foldl_cons]

/-- A part without an error leaves the error text alone. -/
theorem absorb_log (r : Rendering) (log : List Event) :
    r.absorb { log := log } = log.foldl Rendering.event r := by
  show (log.foldl Rendering.event r).withError r.error = _
  rw [← foldl_withError]
  rfl

/-- Two meanings are absorbed one after the other. -/
theorem absorb_append (r : Rendering) (a b : Meaning) :
    r.absorb (a.append b) = (r.absorb a).absorb b := by
  show ((a.log ++ b.log).foldl Rendering.event r).withError ((b.error.or a.error).or r.error)
    = ((b.log.foldl Rendering.event
        ((a.log.foldl Rendering.event r).withError (a.error.or r.error)))).withError
          (b.error.or (a.error.or r.error))
  rw [foldl_withError, List.foldl_append, Option.or_assoc]
  rfl

/-- The marks around a section belong to its meaning. -/
theorem absorb_enclosed (r : Rendering) (m : Meaning) :
    (r.mark.absorb m).mark = r.absorb m.enclosed := by
  rw [Rendering.absorb, Rendering.absorb, Meaning.enclosed, List.foldl_cons, List.foldl_append]
  rfl

section Refinement

variable {rp : Bytes → Context → Rendering → Option Rendering}
  {mp : Bytes → Context → Option Meaning}

/-- The template of a partial starts without an error, and what it leaves goes to the
    template around it. -/
theorem absorb_partial (r : Rendering) (m : Meaning) :
    (if ((r.withError none).absorb m).error = none then
        (((r.withError none).absorb m).withError r.error, false)
      else ((r.withError none).absorb m, true))
      = (r.absorb ⟨m.log, m.error, m.error.isSome⟩, m.error.isSome) := by
  have herror : ((r.withError none).absorb m).error = m.error := Option.or_none
  rw [herror, Rendering.absorb, foldl_withError, Rendering.absorb]
  cases m.error with
  | none => rfl
  | some e => rfl

/-- The leaves of a walk whose partials keep a log. -/
theorem renderLeaf_meaning
    (hp : ∀ text ctx r, rp text ctx r = (mp text ctx).map r.absorb)
    (ctx : Context) (r : Rendering) (l : Leaf) :
    renderLeaf rp ctx r l
      = (meaningOfLeaf mp ctx l).map fun m => (r.absorb m, m.stopped) := by
  cases l with
  | text t p =>
      rw [renderLeaf, meaningOfLeaf, Option.map_some, absorb_log]
      split <;> rfl
  | tag t =>
      rw [renderLeaf, meaningOfLeaf]
      split
      · rw [Option.map_some, absorb_log]
        rfl
      · rw [Option.map_some, absorb_log]
        rfl
      · split
        · rfl
        · next text _ =>
            rw [hp, Option.map_map, Option.map_map]
            exact congrArg (fun f => (mp text ctx).map f) (funext fun m => absorb_partial r m)
      · rfl

/-- A walk whose partials keep a log keeps a log. -/
theorem renderChildren_meaning
    (hp : ∀ text ctx r, rp text ctx r = (mp text ctx).map r.absorb) (cs : Components) :
    ∀ (ctx : Context) (r : Rendering),
      renderChildren rp cs ctx r
        = (meaning mp cs ctx).map fun m => (r.absorb m, m.stopped) := by
  induction cs with
  | nil => exact fun ctx r => rfl
  | leaf l rest ih =>
      intro ctx r
      rw [renderChildren, meaning, renderLeaf_meaning hp]
      cases meaningOfLeaf mp ctx l with
      | none => rfl
      | some m =>
          rw [Option.map_some, Option.bind_some, Option.bind_some]
          cases hstopped : m.stopped with
          | true => rw [if_pos rfl, if_pos rfl, Option.map_some, hstopped]
          | false =>
              rw [if_neg Bool.false_ne_true, if_neg Bool.false_ne_true, ih, Option.map_map]
              refine congrArg (fun f => (meaning mp rest ctx).map f) (funext fun m' => ?_)
              exact congrArg (·, m'.stopped) (absorb_append r m m').symm
  | node t body c rest ihbody ihrest =>
      intro ctx r
      have hfold : ∀ (inner : List Context) (m : Meaning),
          inner.foldlM
              (fun r c => (renderChildren rp body c r.mark).map fun r' => r'.1.mark)
              (r.absorb m)
            = (inner.foldlM
                (fun (m : Meaning) c => (meaning mp body c).map fun m' => m.append m'.enclosed)
                m).map r.absorb := by
        intro inner
        induction inner with
        | nil => exact fun m => rfl
        | cons c inner ih =>
            intro m
            rw [List.foldlM_cons, List.foldlM_cons, ihbody]
            cases meaning mp body c with
            | none => rfl
            | some m' =>
                show inner.foldlM _ ((r.absorb m).mark.absorb m').mark = _
                rw [absorb_enclosed, ← absorb_append, ih]
                rfl
      have hstart := hfold (sectionContexts ctx t.tag) {}
      rw [absorb_log] at hstart
      rw [renderChildren, meaning]
      refine (congrArg (Option.bind · _) hstart).trans ?_
      rw [Option.bind_map, Option.map_bind]
      refine congrArg (Option.bind _) (funext fun m => ?_)
      rw [Function.comp_apply, ihrest, Function.comp_apply, Option.map_map]
      refine congrArg (fun f => (meaning mp rest ctx).map f) (funext fun m' => ?_)
      exact congrArg (·, m'.stopped) (absorb_append r m m').symm

end Refinement

/-- Partials keep a log, however deep they nest. -/
theorem renderPartial_meaning :
    ∀ (depth : Nat) (text : Bytes) (ctx : Context) (r : Rendering),
      renderPartial depth text ctx r = (meaningOfPartial depth text ctx).map r.absorb := by
  intro depth
  induction depth with
  | zero => exact fun text ctx r => rfl
  | succ depth ih =>
      intro text ctx r
      rw [renderPartial, meaningOfPartial]
      split
      · rfl
      · rw [renderChildren_meaning ih, Option.map_map]
        rfl

/-! ## The line buffer lays the log out -/

/-- The line buffer after the events of a line. -/
structure Buffers (r : Rendering) (line : List Event) : Prop where
  data : r.line.data = lineText line
  mark : r.line.containedSectionTag = true ↔ .mark ∈ line

theorem lineText_append (line : List Event) (e : Event) :
    lineText (line ++ [e]) = lineText line ++ lineText [e] :=
  List.flatMap_append

/-- A finished line is laid out and the next one is empty. -/
theorem renderCurrentLine_output {r : Rendering} {line : List Event} (h : Buffers r line)
    (t : Bytes) :
    (r.renderCurrentLine t).output = r.output ++ showLine line t
      ∧ Buffers (r.renderCurrentLine t) [] := by
  have hdrop : (r.line.containedSectionTag && isBlank r.line.data) = true
      ↔ .mark ∈ line ∧ isBlank (lineText line) = true := by
    rw [Bool.and_eq_true, h.mark, h.data]
  rw [Rendering.renderCurrentLine, showLine]
  by_cases hblank : .mark ∈ line ∧ isBlank (lineText line) = true
  · rw [if_pos (hdrop.mpr hblank), if_pos hblank]
    exact ⟨(List.append_nil _).symm, ⟨rfl, by simp⟩⟩
  · rw [if_neg (fun h' => hblank (hdrop.mp h')), if_neg hblank, h.data]
    exact ⟨List.append_assoc _ _ _, ⟨rfl, by simp⟩⟩

/-- The step is an event, the invariant that the buffer holds the events of the current
    line. -/
theorem foldl_event_output (log : List Event) :
    ∀ (r : Rendering) (line : List Event), Buffers r line →
      ((log.foldl Rendering.event r).renderCurrentLine []).output
        = r.output ++ layoutFrom line log := by
  induction log with
  | nil =>
      intro r line h
      exact (renderCurrentLine_output h []).1
  | cons e log ih =>
      intro r line h
      rw [List.foldl_cons]
      cases e with
      | newline t =>
          obtain ⟨houtput, hbuffers⟩ := renderCurrentLine_output h t
          rw [Rendering.event, ih _ [] hbuffers, houtput, layoutFrom, List.append_assoc]
      | text t =>
          have hbuffers : Buffers (r.renderResult t) (line ++ [.text t]) := by
            refine ⟨?_, ?_⟩
            · rw [lineText_append, ← h.data]
              exact congrArg (r.line.data ++ ·) (List.append_nil t).symm
            · rw [List.mem_append, ← h.mark]
              exact ⟨Or.inl, fun h' => h'.resolve_right (by simp)⟩
          rw [Rendering.event, ih _ _ hbuffers, layoutFrom]
          · rfl
          · exact fun _ h => by cases h
      | mark =>
          have hbuffers : Buffers r.mark (line ++ [.mark]) := by
            refine ⟨?_, ?_⟩
            · rw [lineText_append, ← h.data]
              exact (List.append_nil _).symm
            · exact ⟨fun _ => List.mem_append_right _ (List.mem_singleton_self _), fun _ => rfl⟩
          rw [Rendering.event, ih _ _ hbuffers, layoutFrom]
          · rfl
          · exact fun _ h => by cases h

/-- **RENDERING IS LAYING OUT**: the output of a template is the log of what it stands
    for, laid out in lines. -/
theorem render_layout (depth : Nat) (cs : Components) (data : Data) :
    render depth cs data
      = (meaning (meaningOfPartial depth) cs [data]).map fun m => layout m.log := by
  rw [render, renderChildren_meaning (renderPartial_meaning depth), Option.map_map]
  refine congrArg (fun f => (meaning (meaningOfPartial depth) cs [data]).map f)
    (funext fun m => ?_)
  have hstart : Buffers (({} : Rendering).withError (m.error.or none)) [] :=
    ⟨rfl, by simp [Rendering.withError]⟩
  show ((Rendering.absorb {} m).renderCurrentLine []).output = layout m.log
  rw [Rendering.absorb, ← foldl_withError, foldl_event_output m.log _ [] hstart]
  rfl

/-! ## Partials that come to an end -/

/-- The partials a tree names. -/
def Names (cs : Components) (name : Bytes) : Prop :=
  ∃ p : PlacedTag, .leaf (.tag p) ∈ cs.tokens ∧ p.tag.kind = .partialTag ∧ p.tag.name = name

/-- Contexts that stay in a set on the way into sections. -/
def Closed (P : Context → Prop) : Prop :=
  ∀ ctx t inner, P ctx → inner ∈ sectionContexts ctx t → P inner

/-- The result of a tree is fixed as soon as those of its partials are. -/
theorem meaning_of_partials {P : Context → Prop} (hP : Closed P)
    {mp mp' : Bytes → Context → Option Meaning} (cs : Components) :
    (∀ name ctx text, Names cs name → P ctx → ctx.getPartial name = some text →
        (mp text ctx).isSome ∧ mp' text ctx = mp text ctx) →
      ∀ ctx, P ctx → (meaning mp cs ctx).isSome ∧ meaning mp' cs ctx = meaning mp cs ctx := by
  induction cs with
  | nil => exact fun _ ctx _ => ⟨rfl, rfl⟩
  | leaf l rest ih =>
      intro hp ctx hctx
      have hrest := ih (fun name ctx text ⟨p, hmem, hkind, hname⟩ =>
        hp name ctx text ⟨p, List.mem_cons_of_mem _ hmem, hkind, hname⟩) ctx hctx
      have hleaf : (meaningOfLeaf mp ctx l).isSome
          ∧ meaningOfLeaf mp' ctx l = meaningOfLeaf mp ctx l := by
        cases l with
        | text t p => exact ⟨rfl, rfl⟩
        | tag t =>
            rw [meaningOfLeaf, meaningOfLeaf]
            split
            · exact ⟨rfl, rfl⟩
            · exact ⟨rfl, rfl⟩
            · next hkind =>
                split
                · exact ⟨rfl, rfl⟩
                · next text htext =>
                    obtain ⟨hsome, heq⟩ :=
                      hp _ ctx text ⟨t, List.mem_cons_self .., hkind, rfl⟩ hctx htext
                    rw [heq, Option.isSome_map]
                    exact ⟨hsome, rfl⟩
            · exact ⟨rfl, rfl⟩
      obtain ⟨m, hm⟩ := Option.isSome_iff_exists.mp hleaf.1
      rw [meaning, meaning, hleaf.2, hm, Option.bind_some, Option.bind_some]
      split
      · exact ⟨rfl, rfl⟩
      · rw [hrest.2, Option.isSome_map]
        exact ⟨hrest.1, rfl⟩
  | node t body c rest ihbody ihrest =>
      intro hp ctx hctx
      have hbody := ihbody (fun name ctx text ⟨p, hmem, hkind, hname⟩ =>
        hp name ctx text ⟨p, by
          rw [Nesting.Forest.tokens]
          exact List.mem_cons_of_mem _ (List.mem_append_left _ hmem), hkind, hname⟩)
      have hrest := ihrest (fun name ctx text ⟨p, hmem, hkind, hname⟩ =>
        hp name ctx text ⟨p, by
          rw [Nesting.Forest.tokens]
          exact List.mem_cons_of_mem _ (List.mem_append_right _ (List.mem_append_right _ hmem)),
          hkind, hname⟩) ctx hctx
      have hfold : ∀ (inner : List Context) (m : Meaning), (∀ c ∈ inner, P c) →
          (inner.foldlM (fun (m : Meaning) c =>
              (meaning mp body c).map fun m' => m.append m'.enclosed) m).isSome
            ∧ inner.foldlM (fun (m : Meaning) c =>
                (meaning mp' body c).map fun m' => m.append m'.enclosed) m
              = inner.foldlM (fun (m : Meaning) c =>
                (meaning mp body c).map fun m' => m.append m'.enclosed) m := by
        intro inner
        induction inner with
        | nil => exact fun m _ => ⟨rfl, rfl⟩
        | cons c inner ih =>
            intro m hinner
            obtain ⟨hsome, heq⟩ := hbody c (hinner c (List.mem_cons_self ..))
            obtain ⟨m', hm'⟩ := Option.isSome_iff_exists.mp hsome
            rw [List.foldlM_cons, List.foldlM_cons, heq, hm']
            exact ih _ (fun c hc => hinner c (List.mem_cons_of_mem _ hc))
      obtain ⟨hsome, heq⟩ := hfold (sectionContexts ctx t.tag) {}
        (fun c hc => hP ctx t.tag c hctx hc)
      obtain ⟨m, hm⟩ := Option.isSome_iff_exists.mp hsome
      rw [meaning, meaning, heq, hm, Option.bind_some, Option.bind_some, hrest.2,
        Option.isSome_map]
      exact ⟨hrest.1, rfl⟩

/-- A measure that drops from every template to the partials it names. -/
def Shrinking (P : Context → Prop) (rank : Bytes → Nat) : Prop :=
  ∀ s cs name ctx text, MustacheTree.parse s = .ok cs → Names cs name → P ctx →
    ctx.getPartial name = some text → rank text < rank s

/-- The nesting of such partials is bounded by the measure. -/
theorem meaningOfPartial_total {P : Context → Prop} {rank : Bytes → Nat} (hP : Closed P)
    (hrank : Shrinking P rank) :
    ∀ (depth : Nat) (s : Bytes) (ctx : Context), P ctx → rank s < depth →
      (meaningOfPartial depth s ctx).isSome
        ∧ ∀ more, meaningOfPartial (depth + more) s ctx = meaningOfPartial depth s ctx := by
  intro depth
  induction depth with
  | zero => exact fun s ctx _ h => by cases h
  | succ depth ih =>
      intro s ctx hctx hlt
      have hsucc : ∀ more, depth + 1 + more = (depth + more) + 1 := fun more => by omega
      cases hparse : MustacheTree.parse s with
      | error e =>
          rw [meaningOfPartial, hparse]
          refine ⟨rfl, fun more => ?_⟩
          rw [hsucc, meaningOfPartial, hparse]
      | ok cs =>
          have hpartials := fun more => @meaning_of_partials P hP (meaningOfPartial depth)
            (meaningOfPartial (depth + more)) cs
            (fun name ctx' text hname hctx' htext => by
              have hdrop := hrank s cs name ctx' text hparse hname hctx' htext
              have hdepth := ih text ctx' hctx' (by omega)
              exact ⟨hdepth.1, hdepth.2 more⟩) ctx hctx
          rw [meaningOfPartial, hparse]
          refine ⟨(hpartials 0).1, fun more => ?_⟩
          rw [hsucc, meaningOfPartial, hparse]
          exact (hpartials more).2

/-- A template is rendered as one of its own partials would be. -/
theorem mustache_eq (depth : Nat) (input : Bytes) (data : Data) :
    mustache depth input data
      = (meaningOfPartial (depth + 1) input [data]).map fun m => layout m.log := by
  rw [mustache, meaningOfPartial]
  split
  · rfl
  · exact render_layout depth _ data

/-- With such partials the template is rendered, and a larger bound changes nothing. -/
theorem mustache_total {P : Context → Prop} {rank : Bytes → Nat} {data : Data}
    (hP : Closed P) (hrank : Shrinking P rank) (hdata : P [data]) {depth : Nat}
    {input : Bytes} (hdepth : rank input ≤ depth) :
    (mustache depth input data).isSome
      ∧ ∀ more, mustache (depth + more) input data = mustache depth input data := by
  obtain ⟨hsome, hmore⟩ :=
    meaningOfPartial_total hP hrank (depth + 1) input [data] hdata (by omega)
  rw [mustache_eq, Option.isSome_map]
  refine ⟨hsome, fun more => ?_⟩
  rw [mustache_eq, ← hmore more]
  exact congrArg (fun n => (meaningOfPartial n input [data]).map _) (by omega)

end MustacheRender
