import BookFilerHttp.ByteStringProofs
import BookFilerHttp.OrdMapProofs

/-! # Mustache templates over flat data

    The template library as far as variables go: the scanner that cuts a template
    into text, whitespace and tags, and the renderer that walks the pieces with a
    line buffer.  The data is one flat object of strings.  What the library does
    with sections, partials and delimiter tags is a PARAMETER, `structured`.

    `mustache_show` is the specification: a template that is made of text and
    variable tags is rendered with each tag replaced by the escaped string that
    the data has for it, and by nothing when it has none. -/

namespace Mustache

open ByteString

/-- The data: an object whose members are strings. -/
abbrev Data := OrdMap.Map Bytes Bytes

/-- `std::isspace` in the default locale. -/
def isspace (c : UInt8) : Bool := c == 32 || (9 ≤ c && c ≤ 13)

/-- `trim`. -/
def trim (s : Bytes) : Bytes := (s.dropWhile isspace).rdropWhile isspace

/-- `html_escape` of one character. -/
def escapeChar (c : UInt8) : Bytes :=
  if c = 38 then lit "&amp;"
  else if c = 60 then lit "&lt;"
  else if c = 62 then lit "&gt;"
  else if c = 34 then lit "&quot;"
  else if c = 39 then lit "&apos;"
  else [c]

/-- `html_escape`. -/
def htmlEscape (s : Bytes) : Bytes := s.flatMap escapeChar

/-- `basic_data::set` on an object. -/
def set (name var : Bytes) (data : Data) : Data := OrdMap.alter name (fun _ => var) data

/-- `split(s, '.')`: as `getline` cuts, without a last empty element. -/
def splitDots (item : Bytes) : Bytes → List Bytes
  | [] => if item = [] then [] else [item]
  | c :: rest => if c = 46 then item :: splitDots [] rest else splitDots (item ++ [c]) rest

/-- `context::get` where it leads to a string: the name `.` is the whole object, and
    a string has no members. -/
def contextGet (data : Data) (name : Bytes) : Option Bytes :=
  if name = [46] then none
  else if 46 ∉ name then OrdMap.find name data
  else
    match splitDots [] name with
    | [n] => OrdMap.find n data
    | _ => none

/-! ## The scanner -/

/-- The tags that stand alone. -/
inductive TagType where
  | variable
  | unescapedVariable
  | comment
  deriving DecidableEq

/-- One component of a template. -/
inductive Component where
  | text (t : Bytes)
  | tag (type : TagType) (name : Bytes)
  deriving DecidableEq

/-- What the scanner makes of a template; `invalid` is a tag that is not closed, and
    `structured` a template with a section, a partial or a delimiter tag. -/
inductive Parsed where
  | components (cs : List Component)
  | invalid
  | structured
  deriving DecidableEq

/-- Components in front of those of the rest. -/
def Parsed.prepend (cs : List Component) : Parsed → Parsed
  | .components rest => .components (cs ++ rest)
  | .invalid => .invalid
  | .structured => .structured

/-- `input.find(delimiter, pos)`: the part before it and the part after it. -/
def splitAt (delimiter : Bytes) : Bytes → Option (Bytes × Bytes)
  | [] => none
  | c :: rest =>
      if delimiter.isPrefixOf (c :: rest) then
        some ([], (c :: rest).drop delimiter.length)
      else (splitAt delimiter rest).map (fun r => (c :: r.1, r.2))

/-- `parse_tag_contents`; none for the tags of `structured`. -/
def parseTagContents (isUnescapedVar : Bool) (contents : Bytes) : Option Component :=
  match contents with
  | [] => some (.tag (if isUnescapedVar then .unescapedVariable else .variable) [])
  | c :: name =>
      if c = 61 then none
      else if isUnescapedVar then some (.tag .unescapedVariable contents)
      else if c = 38 then some (.tag .unescapedVariable (trim name))
      else if c = 33 then some (.tag .comment (trim name))
      else if c ∈ lit "#^/>" then none
      else some (.tag .variable contents)

/-- The tag whose `\x7b\x7b` has been read: its contents, and the input after it. -/
def readTag (input : Bytes) : Option (Bool × Bytes × Bytes) :=
  match input with
  | 123 :: rest => (splitAt [125, 125, 125] rest).map (fun r => (true, r))
  | _ => (splitAt [125, 125] input).map (fun r => (false, r))

/-- The whitespace text at the front of the input. -/
def whitespaceAt (input : Bytes) : Option Bytes :=
  [[13, 10], [10], [13], [32], [9]].find? (fun w => w.isPrefixOf input)

/-- `process_current_text`. -/
def flushText (currentText : Bytes) : List Component :=
  if currentText = [] then [] else [.text currentText]

/-- The loop of `parse`; `skip` bytes have been read with what is before them. -/
def parseFrom (currentText : Bytes) (skip : Nat) : Bytes → Parsed
  | [] => .components (flushText currentText)
  | c :: rest =>
      match skip with
      | n + 1 => parseFrom currentText n rest
      | 0 =>
          if [123, 123].isPrefixOf (c :: rest) then
            match readTag (rest.drop 1) with
            | none => .invalid
            | some (isUnescapedVar, contents, after) =>
                match parseTagContents isUnescapedVar (trim contents) with
                | none => .structured
                | some tag =>
                    (parseFrom [] (rest.length - after.length) rest).prepend
                      (flushText currentText ++ [tag])
          else
            match whitespaceAt (c :: rest) with
            | some w =>
                (parseFrom [] (w.length - 1) rest).prepend
                  (flushText currentText ++ [.text w])
            | none => parseFrom (currentText ++ [c]) 0 rest

/-- `parser::parse`. -/
def parse (input : Bytes) : Parsed := parseFrom [] 0 input

/-! ## The renderer -/

/-- The output so far and the text of the current line. -/
structure Rendering where
  output : Bytes
  line : Bytes

/-- `is_newline`. -/
def isNewline (t : Bytes) : Bool := t == [13, 10] || t == [10] || t == [13]

/-- `render_component`; without sections no line is left out. -/
def renderComponent (data : Data) (r : Rendering) : Component → Rendering
  | .text t =>
      if isNewline t then { output := r.output ++ r.line ++ t, line := [] }
      else { r with line := r.line ++ t }
  | .tag .variable name =>
      match contextGet data name with
      | some v => { r with line := r.line ++ htmlEscape v }
      | none => r
  | .tag .unescapedVariable name =>
      match contextGet data name with
      | some v => { r with line := r.line ++ v }
      | none => r
  | .tag .comment _ => r

/-- `render`: the walk over the components, then the last line. -/
def render (data : Data) (cs : List Component) : Bytes :=
  let r := cs.foldl (renderComponent data) { output := [], line := [] }
  r.output ++ r.line

/-- A template constructed and rendered; an invalid one renders as nothing. -/
def mustache (structured : Bytes → Data → Bytes) (input : Bytes) (data : Data) : Bytes :=
  match parse input with
  | .components cs => render data cs
  | .invalid => []
  | .structured => structured input data

/-! ## Templates of text and variables -/

/-- A piece of a template: one byte of text, or the tag of a key. -/
inductive Piece where
  | byte (c : UInt8)
  | tag (key : Bytes)

/-- A key without dots, whitespace and template syntax. -/
structure PlainKey (key : Bytes) : Prop where
  noDot : 46 ∉ key
  noSpace : ∀ c ∈ key, isspace c = false
  noBrace : 123 ∉ key ∧ 125 ∉ key
  noSigil : ∀ c ∈ key.head?, c ∉ lit "#^/>&!="

/-- The text of a piece. -/
def Piece.show : Piece → Bytes
  | .byte c => [c]
  | .tag key => [123, 123] ++ key ++ [125, 125]

/-- The text of a template. -/
def showAll (ps : List Piece) : Bytes := ps.flatMap Piece.show

/-- Two braces open a tag wherever they stand, and every tag is that of a plain
    key. -/
def PlainTemplate : List Piece → Prop
  | [] => True
  | .byte c :: rest =>
      ¬ (c = 123 ∧ (showAll rest).head? = some 123) ∧ PlainTemplate rest
  | .tag key :: rest => PlainKey key ∧ PlainTemplate rest

/-- What stands for a tag: the escaped value, or nothing. -/
def substitute (value : Option Bytes) : Bytes := value.elim [] htmlEscape

/-- The template with each tag replaced. -/
def expand (value : Bytes → Option Bytes) (ps : List Piece) : Bytes :=
  ps.flatMap (fun
    | .byte c => [c]
    | .tag key => substitute (value key))

/-- The keys of the tags. -/
def keys (ps : List Piece) : List Bytes :=
  ps.filterMap (fun
    | .byte _ => none
    | .tag key => some key)

/-! ## The renderer concatenates -/

/-- What one component adds. -/
def rendered (data : Data) : Component → Bytes
  | .text t => t
  | .tag .variable name => substitute (contextGet data name)
  | .tag .unescapedVariable name => (contextGet data name).getD []
  | .tag .comment _ => []

/-- A component adds its own text to what is there. -/
theorem renderComponent_append (data : Data) (r : Rendering) (c : Component) :
    (renderComponent data r c).output ++ (renderComponent data r c).line
      = r.output ++ r.line ++ rendered data c := by
  cases c with
  | text t =>
      rw [renderComponent]
      split
      · exact List.append_nil _
      · exact (List.append_assoc ..).symm
  | tag type name =>
      cases type with
      | «variable» =>
          rw [renderComponent, rendered]
          cases contextGet data name with
          | none => exact (List.append_nil _).symm
          | some v => exact (List.append_assoc ..).symm
      | unescapedVariable =>
          rw [renderComponent, rendered]
          cases contextGet data name with
          | none => exact (List.append_nil _).symm
          | some v => exact (List.append_assoc ..).symm
      | comment => exact (List.append_nil _).symm

/-- The line buffer changes nothing: the output is that of the components in a
    row. -/
theorem render_eq (data : Data) (cs : List Component) :
    render data cs = cs.flatMap (rendered data) := by
  have hfold : ∀ (cs : List Component) (r : Rendering),
      (cs.foldl (renderComponent data) r).output ++ (cs.foldl (renderComponent data) r).line
        = r.output ++ r.line ++ cs.flatMap (rendered data) := by
    intro cs
    induction cs with
    | nil => exact fun r => (List.append_nil _).symm
    | cons c rest ih =>
        intro r
        rw [List.foldl_cons, ih, renderComponent_append, List.flatMap_cons,
          List.append_assoc]
  exact hfold cs { output := [], line := [] }

/-! ## The scanner reads what a template shows -/

theorem showAll_byte (c : UInt8) (ps : List Piece) :
    showAll (.byte c :: ps) = c :: showAll ps := rfl

theorem showAll_tag (key : Bytes) (ps : List Piece) :
    showAll (.tag key :: ps) = [123, 123] ++ (key ++ [125, 125] ++ showAll ps) := by
  show [123, 123] ++ key ++ [125, 125] ++ showAll ps = _
  rw [List.append_assoc, List.append_assoc, List.append_assoc]

/-- Bytes that have been read are passed over. -/
theorem parseFrom_skip (currentText : Bytes) :
    ∀ (skip : Nat) (input : Bytes),
      parseFrom currentText skip input = parseFrom currentText 0 (input.drop skip) := by
  intro skip
  induction skip with
  | zero => exact fun _ => rfl
  | succ n ih =>
      intro input
      cases input with
      | nil => rfl
      | cons c rest => exact ih rest

/-- The first occurrence of a delimiter: none starts earlier. -/
theorem splitAt_first {d : UInt8} {ds key : Bytes} (rest : Bytes)
    (h : ¬ (d :: ds) <:+: key ++ (d :: ds).dropLast) :
    splitAt (d :: ds) (key ++ (d :: ds) ++ rest) = some (key, rest) := by
  induction key with
  | nil =>
      have hprefix : (d :: ds).isPrefixOf (d :: (ds ++ rest)) = true :=
        List.isPrefixOf_iff_prefix.mpr ⟨rest, rfl⟩
      show splitAt (d :: ds) (d :: (ds ++ rest)) = _
      rw [splitAt, if_pos hprefix]
      show some (([] : Bytes), (ds ++ rest).drop ds.length) = _
      rw [List.drop_left]
  | cons c cs ih =>
      rw [List.cons_append, List.infix_cons_iff, not_or] at h
      have hprefix : ¬ (d :: ds).isPrefixOf (c :: (cs ++ (d :: ds) ++ rest)) = true := by
        intro hp
        -- what starts here ends before the last byte of the delimiter
        have hshort : c :: (cs ++ (d :: ds).dropLast) <+: c :: (cs ++ (d :: ds) ++ rest) := by
          rw [List.cons_prefix_cons, List.append_assoc, List.prefix_append_right_inj]
          exact ⟨rfl, (List.dropLast_prefix _).trans (List.prefix_append _ _)⟩
        refine h.1 (List.prefix_of_prefix_length_le (List.isPrefixOf_iff_prefix.mp hp) hshort ?_)
        simp only [List.length_cons, List.length_append, List.length_dropLast]
        omega
      show splitAt (d :: ds) (c :: (cs ++ (d :: ds) ++ rest)) = _
      rw [splitAt, if_neg hprefix, ih h.2]
      rfl

/-- The first occurrence of a delimiter whose first byte the part before lacks. -/
theorem splitAt_append {d : UInt8} {ds key : Bytes} (rest : Bytes) (h : d ∉ key) :
    splitAt (d :: ds) (key ++ (d :: ds) ++ rest) = some (key, rest) := by
  refine splitAt_first rest ?_
  rintro ⟨s, t, hst⟩
  have hlength := congrArg List.length hst
  simp only [List.length_append, List.length_cons, List.length_dropLast] at hlength
  -- an occurrence starts inside of the part before
  have hget : (s ++ (d :: ds) ++ t)[s.length]? = some d := by simp
  rw [hst, List.getElem?_append_left (by omega)] at hget
  exact h (List.mem_of_getElem? hget)

/-- There is nothing to trim off a text without whitespace. -/
theorem trim_eq {s : Bytes} (h : ∀ c ∈ s, isspace c = false) : trim s = s := by
  have hdrop : s.dropWhile isspace = s := by
    cases s with
    | nil => rfl
    | cons c rest =>
        rw [List.dropWhile_cons, h c (List.mem_cons_self ..)]
        rfl
  rw [trim, hdrop, List.rdropWhile_eq_self_iff]
  intro hne
  rw [h _ (List.getLast_mem hne)]
  exact Bool.false_ne_true

/-- A plain key is read as a variable of that name. -/
theorem parseTagContents_plain {key : Bytes} (h : PlainKey key) :
    parseTagContents false key = some (.tag .variable key) := by
  cases key with
  | nil => rfl
  | cons c name =>
      have hsigil : c ∉ lit "#^/>&!=" := h.noSigil c rfl
      have hne : ∀ x ∈ lit "#^/>&!=", c ≠ x := fun x hx hc => hsigil (hc ▸ hx)
      have hstart : c ∉ lit "#^/>" :=
        fun hm => hsigil (List.mem_append_left (lit "&!=") hm)
      rw [parseTagContents, if_neg (hne 61 (by decide)), if_neg Bool.false_ne_true,
        if_neg (hne 38 (by decide)), if_neg (hne 33 (by decide)), if_neg hstart]

/-- The tag of a plain key is read as such. -/
theorem readTag_plain {key : Bytes} (rest : Bytes) (h : PlainKey key) :
    readTag (key ++ [125, 125] ++ rest) = some (false, key, rest) := by
  have hsplit := @splitAt_append 125 [125] key rest h.noBrace.2
  have hfalse : readTag (key ++ [125, 125] ++ rest)
      = (splitAt [125, 125] (key ++ [125, 125] ++ rest)).map (fun r => (false, r)) := by
    cases key with
    | nil => rfl
    | cons c cs =>
        have hc : c ≠ 123 := fun hc => h.noBrace.1 (hc ▸ List.mem_cons_self ..)
        exact readTag.eq_2 _ (fun rest' heq => hc (List.cons.inj heq).1)
  rw [hfalse, hsplit]
  rfl

/-- A plain key is looked up as it stands. -/
theorem contextGet_plain {key : Bytes} (data : Data) (h : PlainKey key) :
    contextGet data key = OrdMap.find key data := by
  have hdot : ¬ key = [46] := by
    intro heq
    exact h.noDot (heq ▸ List.mem_cons_self ..)
  rw [contextGet, if_neg hdot, if_pos h.noDot]

/-- A tag is one component, and the text before it another. -/
theorem parseFrom_tag {key : Bytes} (currentText : Bytes) (ps : List Piece)
    (h : PlainKey key) :
    parseFrom currentText 0 (showAll (.tag key :: ps))
      = (parseFrom [] 0 (showAll ps)).prepend
          (flushText currentText ++ [.tag .variable key]) := by
  have hread := readTag_plain (showAll ps) h
  have hdrop : (123 :: (key ++ [125, 125] ++ showAll ps)).drop
      ((123 :: (key ++ [125, 125] ++ showAll ps)).length - (showAll ps).length)
      = showAll ps := by
    have hlen : (123 :: (key ++ [125, 125] ++ showAll ps)).length - (showAll ps).length
        = (123 :: (key ++ [125, 125])).length := by
      simp only [List.length_cons, List.length_append]
      omega
    rw [hlen]
    exact @List.drop_left _ (123 :: (key ++ [125, 125])) (showAll ps)
  rw [showAll_tag]
  have hopens : [123, 123].isPrefixOf (123 :: 123 :: (key ++ [125, 125] ++ showAll ps))
      = true := List.isPrefixOf_iff_prefix.mpr ⟨_, rfl⟩
  show parseFrom currentText 0 (123 :: 123 :: (key ++ [125, 125] ++ showAll ps)) = _
  rw [parseFrom, if_pos hopens, List.drop_one, List.tail_cons, hread]
  dsimp only
  rw [trim_eq h.noSpace, parseTagContents_plain h]
  dsimp only
  rw [parseFrom_skip, hdrop]

/-- A template is made of its pieces in one way. -/
theorem showAll_injective {ps : List Piece} :
    ∀ {qs : List Piece}, PlainTemplate ps → PlainTemplate qs → showAll ps = showAll qs →
      ps = qs := by
  induction ps with
  | nil =>
      intro qs _ _ h
      cases qs with
      | nil => rfl
      | cons q rest =>
          cases q with
          | byte c => cases h
          | tag key => cases h
  | cons p ps' ih =>
      intro qs hp hq h
      cases qs with
      | nil =>
          cases p with
          | byte c => cases h
          | tag key => cases h
      | cons q qs' =>
          cases p with
          | byte c =>
              cases q with
              | byte c' =>
                  obtain ⟨rfl, hrest⟩ := List.cons.inj h
                  rw [ih hp.2 hq.2 hrest]
              | tag key =>
                  -- two braces in a row are not two bytes of text
                  obtain ⟨hc, hrest⟩ := List.cons.inj h
                  exact absurd ⟨hc, congrArg List.head? hrest⟩ hp.1
          | tag key =>
              cases q with
              | byte c =>
                  obtain ⟨hc, hrest⟩ := List.cons.inj h
                  exact absurd ⟨hc.symm, congrArg List.head? hrest.symm⟩ hq.1
              | tag key' =>
                  rw [showAll_tag, showAll_tag] at h
                  have htag := List.append_cancel_left h
                  have hleft := @splitAt_append 125 [125] key (showAll ps') hp.1.noBrace.2
                  have hright := @splitAt_append 125 [125] key' (showAll qs') hq.1.noBrace.2
                  rw [htag, hright] at hleft
                  obtain ⟨rfl, hrest⟩ := Prod.mk.inj (Option.some.inj hleft)
                  rw [ih hp.2 hq.2 hrest.symm]

/-- What the whitespace texts at the front of an input can be. -/
theorem whitespaceAt_some {input w : Bytes} (h : whitespaceAt input = some w) :
    (w = [13, 10] ∨ ∃ c, w = [c]) ∧ w <+: input := by
  have hmem := List.mem_of_find?_eq_some h
  have hprefix := List.find?_some h
  refine ⟨?_, List.isPrefixOf_iff_prefix.mp hprefix⟩
  rcases List.mem_cons.mp hmem with h₁ | h₂
  · exact Or.inl h₁
  · refine Or.inr ?_
    simp only [List.mem_cons, List.not_mem_nil, or_false] at h₂
    rcases h₂ with h₂ | h₂ | h₂ | h₂ <;> exact ⟨_, h₂⟩

/-- A text that begins with a byte begins with that byte as a piece. -/
theorem showAll_head {ps : List Piece} {c : UInt8} {s : Bytes}
    (h : showAll ps = c :: s) (hc : c ≠ 123) :
    ∃ rest, ps = .byte c :: rest ∧ showAll rest = s := by
  cases ps with
  | nil => cases h
  | cons p rest =>
      cases p with
      | byte c' =>
          obtain ⟨rfl, hrest⟩ := List.cons.inj h
          exact ⟨rest, rfl, hrest⟩
      | tag key => exact absurd (List.cons.inj h).1.symm hc

/-- The text that was collected is rendered as it is. -/
theorem flushText_rendered (data : Data) (currentText : Bytes) :
    (flushText currentText).flatMap (rendered data) = currentText := by
  rw [flushText]
  split
  · next h => exact h.symm
  · exact List.append_nil _

/-- Components in front of others render in front of them. -/
theorem prepend_rendered {data : Data} {cs rest : List Component} {p : Parsed} {out : Bytes}
    (hp : p = .components rest) (hrest : rest.flatMap (rendered data) = out) :
    ∃ cs', p.prepend cs = .components cs'
      ∧ cs'.flatMap (rendered data) = cs.flatMap (rendered data) ++ out := by
  subst hp
  refine ⟨cs ++ rest, rfl, ?_⟩
  rw [List.flatMap_append, hrest]

/-- A byte of text is collected, or it begins a whitespace text, and what is left is a
    template again. -/
theorem parseFrom_byte {c : UInt8} {ps : List Piece} (currentText : Bytes)
    (h : PlainTemplate (.byte c :: ps)) :
    parseFrom currentText 0 (showAll (.byte c :: ps))
        = parseFrom (currentText ++ [c]) 0 (showAll ps)
      ∨ ∃ w ps', ps'.length ≤ ps.length ∧ PlainTemplate ps'
        ∧ (∀ value, expand value (.byte c :: ps) = w ++ expand value ps')
        ∧ parseFrom currentText 0 (showAll (.byte c :: ps))
          = (parseFrom [] 0 (showAll ps')).prepend (flushText currentText ++ [.text w]) := by
  obtain ⟨hopens, hplain⟩ := h
  have hno : ¬ [123, 123].isPrefixOf (c :: showAll ps) = true := by
    intro hp
    obtain ⟨s, hs⟩ := List.isPrefixOf_iff_prefix.mp hp
    obtain ⟨hc, hhead⟩ := List.cons.inj hs
    exact hopens ⟨hc.symm, by rw [← hhead]; rfl⟩
  rw [showAll_byte, parseFrom, if_neg hno]
  cases hw : whitespaceAt (c :: showAll ps) with
  | none => exact Or.inl rfl
  | some w =>
      obtain ⟨hkind, t, ht⟩ := whitespaceAt_some hw
      obtain ⟨ps', hlen, hplain', hdrop, hexpand⟩ : ∃ ps' : List Piece,
          ps'.length ≤ ps.length ∧ PlainTemplate ps'
          ∧ (showAll ps).drop (w.length - 1) = showAll ps'
          ∧ ∀ value, expand value (.byte c :: ps) = w ++ expand value ps' := by
        rcases hkind with rfl | ⟨c', rfl⟩
        · -- a carriage return takes the line feed behind it along
          obtain ⟨rfl, hlf⟩ := List.cons.inj ht
          obtain ⟨rest, rfl, -⟩ := showAll_head hlf.symm (by decide)
          exact ⟨rest, Nat.le_succ _, hplain.2, rfl, fun _ => rfl⟩
        · obtain ⟨rfl, -⟩ := List.cons.inj ht
          exact ⟨ps, le_rfl, hplain, rfl, fun _ => rfl⟩
      refine Or.inr ⟨w, ps', hlen, hplain', hexpand, ?_⟩
      dsimp only
      rw [parseFrom_skip, hdrop]

/-- The components of a plain template render as the template with its tags
    replaced, from any place of the scan. -/
theorem parseFrom_show (data : Data) :
    ∀ (n : Nat) (ps : List Piece) (currentText : Bytes), ps.length ≤ n →
      PlainTemplate ps →
      ∃ cs, parseFrom currentText 0 (showAll ps) = .components cs
        ∧ cs.flatMap (rendered data)
          = currentText ++ expand (fun key => OrdMap.find key data) ps := by
  have hnil : ∀ currentText : Bytes, ∃ cs,
      parseFrom currentText 0 (showAll []) = .components cs
        ∧ cs.flatMap (rendered data)
          = currentText ++ expand (fun key => OrdMap.find key data) [] :=
    fun currentText =>
      ⟨_, rfl, (flushText_rendered data currentText).trans (List.append_nil _).symm⟩
  intro n
  induction n with
  | zero =>
      intro ps currentText hn _
      rw [List.length_eq_zero_iff.mp (Nat.le_zero.mp hn)]
      exact hnil currentText
  | succ n ih =>
      intro ps currentText hn hps
      cases ps with
      | nil => exact hnil currentText
      | cons p rest =>
          have hrest : rest.length ≤ n := Nat.le_of_succ_le_succ hn
          cases p with
          | tag key =>
              obtain ⟨hkey, hplain⟩ := hps
              obtain ⟨cs, hcs, hrendered⟩ := ih rest [] hrest hplain
              rw [parseFrom_tag currentText rest hkey]
              obtain ⟨cs', hcs', hout⟩ := prepend_rendered hcs hrendered
              refine ⟨cs', hcs', hout.trans ?_⟩
              rw [List.flatMap_append, flushText_rendered, List.append_assoc]
              show currentText ++ (substitute (contextGet data key) ++ [] ++ _) = _
              rw [contextGet_plain data hkey, List.append_nil]
              rfl
          | byte c =>
              rcases parseFrom_byte currentText hps with
                htext | ⟨w, ps', hlen, hplain, hexpand, hspace⟩
              · obtain ⟨cs, hcs, hrendered⟩ := ih rest (currentText ++ [c]) hrest hps.2
                rw [htext]
                exact ⟨cs, hcs, hrendered.trans (List.append_assoc ..)⟩
              · obtain ⟨cs, hcs, hrendered⟩ := ih ps' [] (hlen.trans hrest) hplain
                rw [hspace]
                obtain ⟨cs', hcs', hout⟩ := prepend_rendered hcs hrendered
                refine ⟨cs', hcs', hout.trans ?_⟩
                rw [List.flatMap_append, flushText_rendered, List.append_assoc, hexpand]
                show currentText ++ (w ++ [] ++ _) = _
                rw [List.append_nil]
                rfl

/-- **TEMPLATE SPECIFICATION**: a template of text and variables is rendered with
    each tag replaced by the escaped value the data has for its key. -/
theorem mustache_show (structured : Bytes → Data → Bytes) (data : Data) {ps : List Piece}
    (h : PlainTemplate ps) :
    mustache structured (showAll ps) data = expand (fun key => OrdMap.find key data) ps := by
  obtain ⟨cs, hcs, hrendered⟩ := parseFrom_show data ps.length ps [] le_rfl h
  rw [mustache, parse, hcs]
  show render data cs = _
  rw [render_eq, hrendered]
  rfl

/-! ## Escaping loses nothing -/

/-- One character read back from an escaped text. -/
def unescapeChar : Bytes → Option (UInt8 × Bytes)
  | [] => none
  | c :: s =>
      if c = 38 then
        match s with
        | 97 :: 109 :: 112 :: 59 :: rest => some (38, rest)
        | 108 :: 116 :: 59 :: rest => some (60, rest)
        | 103 :: 116 :: 59 :: rest => some (62, rest)
        | 113 :: 117 :: 111 :: 116 :: 59 :: rest => some (34, rest)
        | 97 :: 112 :: 111 :: 115 :: 59 :: rest => some (39, rest)
        | _ => none
      else some (c, s)

/-- An escaped byte is read back. -/
theorem unescapeChar_escapeChar (c : UInt8) (s : Bytes) :
    unescapeChar (escapeChar c ++ s) = some (c, s) := by
  by_cases hamp : c = 38
  · subst hamp
    rfl
  by_cases hlt : c = 60
  · subst hlt
    rfl
  by_cases hgt : c = 62
  · subst hgt
    rfl
  by_cases hquot : c = 34
  · subst hquot
    rfl
  by_cases hapos : c = 39
  · subst hapos
    rfl
  rw [escapeChar, if_neg hamp, if_neg hlt, if_neg hgt, if_neg hquot, if_neg hapos]
  show (if c = 38 then _ else some (c, s)) = _
  rw [if_neg hamp]

/-- No two texts are escaped alike. -/
theorem htmlEscape_injective : Function.Injective htmlEscape := by
  intro s
  induction s with
  | nil =>
      intro t h
      cases t with
      | nil => rfl
      | cons b t' =>
          have hread := unescapeChar_escapeChar b (htmlEscape t')
          rw [show escapeChar b ++ htmlEscape t' = [] from h.symm] at hread
          cases hread
  | cons a s' ih =>
      intro t h
      have hread := unescapeChar_escapeChar a (htmlEscape s')
      cases t with
      | nil =>
          rw [show escapeChar a ++ htmlEscape s' = [] from h] at hread
          cases hread
      | cons b t' =>
          rw [show escapeChar a ++ htmlEscape s' = escapeChar b ++ htmlEscape t' from h,
            unescapeChar_escapeChar] at hread
          obtain ⟨rfl, hrest⟩ := Prod.mk.inj (Option.some.inj hread)
          rw [ih hrest.symm]

end Mustache
