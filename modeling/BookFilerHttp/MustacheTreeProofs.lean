import BookFilerHttp.MustacheProofs
import BookFilerHttp.NestingProofs
import BookFilerHttp.FramingProofs

/-! # Mustache templates with sections

    The whole parser of the template library: delimiters that a tag can change,
    variables, sections and inverted sections, partials and comments.  It works in one
    loop, with a stack of pointers to the open sections; a closing tag closes the
    innermost one, and a walk over the finished tree compares the names.

    `parse_correct` takes the loop apart: a template is accepted exactly when its tokens
    are those of a tree whose sections are closed by their own names, and that tree is
    the result. -/

namespace MustacheTree

open ByteString Mustache

/-! ## Tags -/

/-- `delimiter_set`. -/
structure DelimiterSet where
  begin_ : Bytes := lit "\x7b\x7b"
  end_ : Bytes := lit "\x7d\x7d"
  deriving DecidableEq

/-- `is_default`. -/
def DelimiterSet.isDefault (d : DelimiterSet) : Bool :=
  d.begin_ == lit "\x7b\x7b" && d.end_ == lit "\x7d\x7d"

/-- `tag_type`. -/
inductive TagKind where
  | «variable»
  | unescapedVariable
  | sectionBegin
  | sectionEnd
  | sectionBeginInverted
  | comment
  | partialTag
  | setDelimiter
  deriving DecidableEq

/-- `mstch_tag`; the text of a section is kept for lambdas only and left out. -/
structure Tag where
  kind : TagKind
  name : Bytes
  delimSet : Option DelimiterSet := none
  deriving DecidableEq

/-- A tag with its position in the input. -/
structure PlacedTag where
  tag : Tag
  position : Nat
  deriving DecidableEq

/-- A component without children: a text or a tag. -/
inductive Leaf where
  | text (t : Bytes) (position : Nat)
  | tag (t : PlacedTag)
  deriving DecidableEq

abbrev Token := Nesting.Token Leaf PlacedTag PlacedTag

/-- The children of a component.  The end tag of a section, which the parser appends to
    the children of the section and the last walk takes off again, is kept beside
    them. -/
abbrev Components := Nesting.Forest Leaf PlacedTag PlacedTag

/-- The error messages. -/
inductive ParseError where
  | unclosedTag (position : Nat)
  | invalidDelimiter (position : Nat)
  | unopenedSection (name : Bytes) (position : Nat)
  | unclosedSection (name : Bytes) (position : Nat)
  | assertion
  deriving DecidableEq

def ParseError.message : ParseError → Bytes
  | .unclosedTag p => lit "Unclosed tag at " ++ Framing.decimal p
  | .invalidDelimiter p => lit "Invalid set delimiter tag at " ++ Framing.decimal p
  | .unopenedSection n p =>
      lit "Unopened section \"" ++ n ++ lit "\" at " ++ Framing.decimal p
  | .unclosedSection n p =>
      lit "Unclosed section \"" ++ n ++ lit "\" at " ++ Framing.decimal p
  | .assertion => []

/-- `is_set_delimiter_valid`. -/
def isSetDelimiterValid (delimiter : Bytes) : Bool :=
  delimiter.all fun ch => !(ch == 61 || isspace ch)

/-- What `parse_set_delimiter_tag` finds; its `nonspace` may fail an assertion. -/
inductive SetDelimiter where
  | valid (d : DelimiterSet)
  | invalid
  | assertion
  deriving DecidableEq

/-- `parse_set_delimiter_tag`. -/
def parseSetDelimiterTag (contents : Bytes) : SetDelimiter :=
  if contents.length < 5 then .invalid
  else if contents.getLast? ≠ some 61 then .invalid
  else
    let contentsSubstr := trim (contents.drop 1).dropLast
    match findFirstOf 32 contentsSubstr with
    | none => .invalid
    | some spacepos =>
        let begin_ := contentsSubstr.take spacepos
        match (contentsSubstr.drop (spacepos + 1)).dropWhile (· == 32) with
        | [] => .assertion
        | c :: rest =>
            if !isSetDelimiterValid begin_ || !isSetDelimiterValid (c :: rest) then .invalid
            else .valid ⟨begin_, c :: rest⟩

/-- `parse_tag_contents`. -/
def parseTagContents (isUnescapedVar : Bool) (contents : Bytes) : Tag :=
  if isUnescapedVar then ⟨.unescapedVariable, contents, none⟩
  else
    match contents with
    | [] => ⟨.variable, [], none⟩
    | c :: name =>
        if c = 35 then ⟨.sectionBegin, trim name, none⟩
        else if c = 94 then ⟨.sectionBeginInverted, trim name, none⟩
        else if c = 47 then ⟨.sectionEnd, trim name, none⟩
        else if c = 62 then ⟨.partialTag, trim name, none⟩
        else if c = 38 then ⟨.unescapedVariable, trim name, none⟩
        else if c = 33 then ⟨.comment, trim name, none⟩
        else ⟨.variable, c :: name, none⟩

/-! ## The loop -/

/-- What the loop reads next. -/
inductive Item where
  | char (c : UInt8)
  | space (w : Bytes)
  | tag (t : Tag)

/-- The tag whose start delimiter at `position` has been read: the tag, the delimiters
    from here on, and the rest of the input. -/
def readTag (d : DelimiterSet) (position : Nat) (input : Bytes) :
    Except ParseError (Tag × DelimiterSet × Bytes) :=
  let tagIsUnescapedVar := d.isDefault && input.head? == some 123
  match (if tagIsUnescapedVar then splitAt (lit "\x7d\x7d\x7d") (input.drop 1)
      else splitAt d.end_ input) with
  | none => .error (.unclosedTag position)
  | some (raw, rest) =>
      if (trim raw).head? = some 61 then
        match parseSetDelimiterTag (trim raw) with
        | .valid d' => .ok (⟨.setDelimiter, [], some d'⟩, d', rest)
        | .invalid => .error (.invalidDelimiter position)
        | .assertion => .error .assertion
      else .ok (parseTagContents tagIsUnescapedVar (trim raw), d, rest)

/-- One turn of the loop: a tag, or a whitespace text, or one character. -/
def next (d : DelimiterSet) (position : Nat) (c : UInt8) (input : Bytes) :
    Except ParseError (Item × DelimiterSet × Bytes) :=
  if d.begin_.isPrefixOf (c :: input) then
    (readTag d position ((c :: input).drop d.begin_.length)).map
      fun r => (.tag r.1, r.2)
  else
    match whitespaceAt (c :: input) with
    | some w => .ok (.space w, d, (c :: input).drop w.length)
    | none => .ok (.char c, d, input)

/-- `current_text` and `current_text_position`. -/
structure CurrentText where
  text : Bytes := []
  position : Nat := 0

def CurrentText.add (t : CurrentText) (c : UInt8) (position : Nat) : CurrentText :=
  if t.text = [] then ⟨[c], position⟩ else ⟨t.text ++ [c], t.position⟩

/-- `process_current_text`. -/
def CurrentText.flush (t : CurrentText) : Components :=
  if t.text = [] then .nil else .leaf (.text t.text t.position) .nil

abbrev Sections := Nesting.State Leaf PlacedTag PlacedTag

/-- A tag is pushed to the children of the innermost section, and opens or closes one;
    none for an end tag without a section. -/
def pushTag (s : Sections) (t : PlacedTag) : Option Sections :=
  match t.tag.kind with
  | .sectionBegin | .sectionBeginInverted => Nesting.step s (.opening t)
  | .sectionEnd => Nesting.step s (.closing t)
  | _ => Nesting.step s (.leaf (.tag t))

/-- The loop of `parse`, bounded by the length of the input. -/
def loop : Nat → DelimiterSet → CurrentText → Sections → Nat → Bytes →
    Except ParseError Components
  | 0, _, t, s, _, _ => .ok (Nesting.finish (s.here.append t.flush) s.outer)
  | _, _, t, s, _, [] => .ok (Nesting.finish (s.here.append t.flush) s.outer)
  | fuel + 1, d, t, s, position, c :: input =>
      match next d position c input with
      | .error e => .error e
      | .ok (item, d', rest) =>
          let position' := position + ((c :: input).length - rest.length)
          match item with
          | .char c => loop fuel d' (t.add c position) s position' rest
          | .space w =>
              loop fuel d' {} ((s.push t.flush).push (.leaf (.text w position) .nil))
                position' rest
          | .tag tag =>
              match pushTag (s.push t.flush) ⟨tag, position⟩ with
              | none => .error (.unopenedSection tag.name position)
              | some s => loop fuel d' {} s position' rest

/-- An end tag closes a section of its name. -/
def sameSection (b c : PlacedTag) : Bool := c.tag.name == b.tag.name

/-- `parser::parse`: the loop, and the walk that looks for a section without its end
    tag. -/
def parse (input : Bytes) : Except ParseError Components :=
  match loop input.length {} {} .start 0 input with
  | .error e => .error e
  | .ok cs =>
      match cs.firstUnclosed sameSection with
      | some t => .error (.unclosedSection t.tag.name t.position)
      | none => .ok cs

/-! ## Tokens -/

/-- The token of a tag. -/
def tagToken (t : PlacedTag) : Token :=
  match t.tag.kind with
  | .sectionBegin | .sectionBeginInverted => .opening t
  | .sectionEnd => .closing t
  | _ => .leaf (.tag t)

/-- The tokens of a template, without any nesting. -/
def scanFrom : Nat → DelimiterSet → CurrentText → Nat → Bytes → Except ParseError (List Token)
  | 0, _, t, _, _ => .ok t.flush.tokens
  | _, _, t, _, [] => .ok t.flush.tokens
  | fuel + 1, d, t, position, c :: input =>
      match next d position c input with
      | .error e => .error e
      | .ok (item, d', rest) =>
          let position' := position + ((c :: input).length - rest.length)
          match item with
          | .char c => scanFrom fuel d' (t.add c position) position' rest
          | .space w =>
              (scanFrom fuel d' {} position' rest).map
                (t.flush.tokens ++ .leaf (.text w position) :: ·)
          | .tag tag =>
              (scanFrom fuel d' {} position' rest).map
                (t.flush.tokens ++ tagToken ⟨tag, position⟩ :: ·)

def scan (input : Bytes) : Except ParseError (List Token) :=
  scanFrom input.length {} {} 0 input

/-- Pushing a tag is a step of the nesting. -/
theorem pushTag_eq (s : Sections) (t : PlacedTag) : pushTag s t = Nesting.step s (tagToken t) := by
  rw [pushTag, tagToken]
  cases t.tag.kind <;> rfl

theorem run_flush (t : CurrentText) (s : Sections) :
    Nesting.run s t.flush.tokens = some (s.push t.flush) := by
  refine Nesting.run_forest sameSection t.flush s ?_
  rw [CurrentText.flush]
  split <;> rfl

/-- The text before a token, and the token. -/
theorem run_piece (t : CurrentText) (tok : Token) (ts : List Token) (s : Sections) :
    Nesting.run s (t.flush.tokens ++ tok :: ts)
      = (Nesting.step (s.push t.flush) tok).bind fun s => Nesting.run s ts := by
  rw [Nesting.run_append, run_flush]
  rfl

theorem map_eq_ok {ε α β : Type} {f : α → β} {x : Except ε α} {b : β} :
    x.map f = .ok b ↔ ∃ a, x = .ok a ∧ f a = b := by
  cases x with
  | error e => exact ⟨fun h => (by cases h), fun ⟨_, h, _⟩ => (by cases h)⟩
  | ok a =>
      constructor
      · intro h
        exact ⟨a, rfl, Except.ok.inj h⟩
      · rintro ⟨_, h, rfl⟩
        rw [Except.ok.inj h]
        rfl

/-- At the end of the input both stop. -/
theorem loop_end (t : CurrentText) (s : Sections) (cs : Components) :
    (Except.ok (Nesting.finish (s.here.append t.flush) s.outer) : Except ParseError Components)
        = .ok cs
      ↔ ∃ ts s', (Except.ok t.flush.tokens : Except ParseError (List Token)) = .ok ts
          ∧ Nesting.run s ts = some s' ∧ Nesting.finish s'.here s'.outer = cs := by
  constructor
  · intro h
    exact ⟨_, _, rfl, run_flush t s, Except.ok.inj h⟩
  · rintro ⟨ts, s', hts, hrun, rfl⟩
    rw [← Except.ok.inj hts, run_flush] at hrun
    rw [← Option.some.inj hrun]
    rfl

/-- **ONE LOOP IS TWO PASSES**: the loop succeeds when the tokens nest. -/
theorem loop_iff :
    ∀ (fuel : Nat) (d : DelimiterSet) (t : CurrentText) (s : Sections) (position : Nat)
      (input : Bytes) (cs : Components),
      loop fuel d t s position input = .ok cs
        ↔ ∃ ts s', scanFrom fuel d t position input = .ok ts ∧ Nesting.run s ts = some s'
            ∧ Nesting.finish s'.here s'.outer = cs := by
  intro fuel
  induction fuel with
  | zero =>
      intro d t s position input cs
      rw [loop, scanFrom]
      exact loop_end t s cs
  | succ fuel ih =>
      intro d t s position input cs
      cases input with
      | nil =>
          rw [loop, scanFrom]
          · exact loop_end t s cs
          all_goals exact fun h => by cases h
      | cons c input =>
          rw [loop, scanFrom]
          cases next d position c input with
          | error e => exact ⟨fun h => (by cases h), fun ⟨_, _, h, _⟩ => (by cases h)⟩
          | ok r =>
              obtain ⟨item, d', rest⟩ := r
              cases item with
              | char c' => exact ih _ _ _ _ _ _
              | space w =>
                  refine (ih _ _ _ _ _ _).trans ?_
                  constructor
                  · rintro ⟨ts, s', hts, hrun, hcs⟩
                    refine ⟨_, s', map_eq_ok.mpr ⟨ts, hts, rfl⟩, ?_, hcs⟩
                    rw [run_piece]
                    exact hrun
                  · rintro ⟨ts, s', hts, hrun, hcs⟩
                    obtain ⟨ts', hts', rfl⟩ := map_eq_ok.mp hts
                    rw [run_piece] at hrun
                    exact ⟨ts', s', hts', hrun, hcs⟩
              | tag tag =>
                  dsimp only
                  rw [pushTag_eq]
                  constructor
                  · intro h
                    cases hstep : Nesting.step (s.push t.flush) (tagToken ⟨tag, position⟩) with
                    | none =>
                        rw [hstep] at h
                        cases h
                    | some s₁ =>
                        rw [hstep] at h
                        obtain ⟨ts, s', hts, hrun, hcs⟩ := (ih _ _ _ _ _ _).mp h
                        refine ⟨_, s', map_eq_ok.mpr ⟨ts, hts, rfl⟩, ?_, hcs⟩
                        rw [run_piece, hstep]
                        exact hrun
                  · rintro ⟨ts, s', hts, hrun, hcs⟩
                    obtain ⟨ts', hts', rfl⟩ := map_eq_ok.mp hts
                    rw [run_piece] at hrun
                    obtain ⟨s₁, hstep, hrun⟩ := Option.bind_eq_some_iff.mp hrun
                    rw [hstep]
                    exact (ih _ _ _ _ _ _).mpr ⟨ts', s', hts', hrun, hcs⟩

/-- **ONE LOOP IS THREE PASSES**: a template is accepted exactly when it scans, and its
    tokens are those of a tree in which each section is closed by an end tag of its own
    name; and the tree is the result. -/
theorem parse_iff (input : Bytes) (cs : Components) :
    parse input = .ok cs
      ↔ scan input = .ok cs.tokens ∧ cs.firstUnclosed sameSection = none := by
  have hloop : parse input = .ok cs
      ↔ loop input.length {} {} .start 0 input = .ok cs
        ∧ cs.firstUnclosed sameSection = none := by
    rw [parse]
    cases loop input.length {} {} .start 0 input with
    | error e => exact ⟨fun h => (by cases h), fun h => (by cases h.1)⟩
    | ok cs' =>
        dsimp only
        constructor
        · intro h
          split at h
          · cases h
          · next hnone =>
              rw [← Except.ok.inj h]
              exact ⟨rfl, hnone⟩
        · rintro ⟨h, hnone⟩
          obtain rfl := Except.ok.inj h
          rw [hnone]
  rw [hloop, loop_iff]
  constructor
  · rintro ⟨⟨ts, s', hts, hrun, hcs⟩, hclosed⟩
    have hbuild : Nesting.build ts = some cs := by
      rw [Nesting.build, hrun]
      exact congrArg some hcs
    obtain ⟨htokens, -⟩ := (Nesting.build_iff sameSection ts cs).mp ⟨hbuild, hclosed⟩
    rw [htokens]
    exact ⟨hts, hclosed⟩
  · rintro ⟨hts, hclosed⟩
    obtain ⟨hbuild, -⟩ := (Nesting.build_iff sameSection cs.tokens cs).mpr ⟨rfl, hclosed⟩
    obtain ⟨s', hrun, hcs⟩ := Option.map_eq_some_iff.mp hbuild
    exact ⟨⟨cs.tokens, s', hts, hrun, hcs⟩, hclosed⟩

/-! ## No assertion fails -/

/-- A trimmed text begins with no blank. -/
theorem trim_head (s : Bytes) {c : UInt8} (h : (trim s).head? = some c) :
    isspace c = false := by
  obtain ⟨rest, hrest⟩ : ∃ rest, s.dropWhile isspace = c :: rest := by
    obtain ⟨t, ht⟩ := List.rdropWhile_prefix (p := isspace) (l := s.dropWhile isspace)
    cases htrim : trim s with
    | nil =>
        rw [htrim] at h
        cases h
    | cons x xs =>
        rw [htrim] at h
        obtain rfl := Option.some.inj h
        refine ⟨xs ++ t, ?_⟩
        rw [← ht]
        exact congrArg (· ++ t) htrim
  have hnot := List.head?_dropWhile_not isspace s
  rw [hrest] at hnot
  simpa using hnot

/-- A trimmed text ends with no blank. -/
theorem trim_last (s : Bytes) {c : UInt8} (h : (trim s).getLast? = some c) :
    isspace c = false := by
  have hne : trim s ≠ [] := fun hnil => by
    rw [hnil] at h
    cases h
  rw [← (List.getLast_eq_iff_getLast?_eq_some hne).mpr h]
  exact Bool.eq_false_of_not_eq_true (List.rdropWhile_last_not isspace _ hne)

theorem trim_length_le (s : Bytes) : (trim s).length ≤ s.length := by
  have hpre := (List.rdropWhile_prefix isspace (s.dropWhile isspace)).length_le
  have hsuf := (List.dropWhile_suffix isspace (l := s)).length_le
  exact hpre.trans hsuf

/-- A blank inside a trimmed text has something else on both sides. -/
theorem trim_cut {s a b : Bytes} (h : trim s = a ++ 32 :: b) :
    a ≠ [] ∧ b.dropWhile (· == 32) ≠ [] := by
  constructor
  · rintro rfl
    have hhead := trim_head s (c := 32) (by rw [h]; rfl)
    cases hhead
  · intro hall
    have hblank : ∀ c ∈ (32 :: b : Bytes), c = 32 := by
      intro c hc
      rcases List.mem_cons.mp hc with h₁ | h₁
      · exact h₁
      · exact beq_iff_eq.mp (List.dropWhile_eq_nil_iff.mp hall c h₁)
    have hne : (32 :: b : Bytes) ≠ [] := List.cons_ne_nil 32 b
    have hlast : (trim s).getLast? = some ((32 :: b : Bytes).getLast hne) := by
      rw [h, List.getLast?_append, List.getLast?_eq_some_getLast hne]
      rfl
    have hspace := trim_last s hlast
    rw [hblank _ (List.getLast_mem hne)] at hspace
    cases hspace

/-- A delimiter tag is read or refused, and its delimiters are not empty. -/
theorem parseSetDelimiterTag_cases (contents : Bytes) :
    parseSetDelimiterTag contents = .invalid
      ∨ ∃ d, parseSetDelimiterTag contents = .valid d ∧ d.begin_ ≠ [] ∧ d.end_ ≠ [] := by
  rw [parseSetDelimiterTag]
  split
  · exact Or.inl rfl
  split
  · exact Or.inl rfl
  by_cases hmem : 32 ∈ trim (contents.drop 1).dropLast
  · obtain ⟨a, b, hcut, ha⟩ := List.eq_append_cons_of_mem hmem
    obtain ⟨hne, hnonspace⟩ := trim_cut hcut
    dsimp only
    rw [hcut, findFirstOf_append b ha]
    dsimp only
    rw [List.take_left, List.drop_append, List.drop_of_length_le (Nat.le_succ _),
      Nat.add_sub_cancel_left, List.nil_append, List.drop_succ_cons, List.drop_zero]
    split
    · next hnil => exact absurd hnil hnonspace
    · split
      · exact Or.inl rfl
      · exact Or.inr ⟨_, rfl, hne, List.cons_ne_nil _ _⟩
  · dsimp only
    rw [findFirstOf_eq_none hmem]
    exact Or.inl rfl

/-- The errors of the loop: neither the assertion nor what the last walk reports. -/
def ParseError.OfLoop : ParseError → Prop
  | .unclosedSection _ _ => False
  | .assertion => False
  | _ => True

/-- Reading a tag raises errors of the loop only. -/
theorem readTag_error {d : DelimiterSet} {position : Nat} {input : Bytes} {e : ParseError}
    (h : readTag d position input = .error e) : e.OfLoop := by
  rw [readTag] at h
  split at h
  · rw [← Except.error.inj h]
    trivial
  · next raw rest _ =>
      split at h
      · rcases parseSetDelimiterTag_cases (trim raw) with hset | ⟨d', hset, -, -⟩
        · rw [hset] at h
          rw [← Except.error.inj h]
          trivial
        · rw [hset] at h
          cases h
      · cases h

theorem next_error {d : DelimiterSet} {position : Nat} {c : UInt8} {input : Bytes}
    {e : ParseError} (h : next d position c input = .error e) : e.OfLoop := by
  rw [next] at h
  split at h
  · cases hread : readTag d position ((c :: input).drop d.begin_.length) with
    | error e' =>
        rw [hread] at h
        rw [← Except.error.inj h]
        exact readTag_error hread
    | ok r =>
        rw [hread] at h
        cases h
  · split at h <;> cases h

/-- The loop raises errors of its own only: an unclosed section is reported later. -/
theorem loop_error :
    ∀ (fuel : Nat) (d : DelimiterSet) (t : CurrentText) (s : Sections) (position : Nat)
      (input : Bytes) (e : ParseError),
      loop fuel d t s position input = .error e → e.OfLoop := by
  intro fuel
  induction fuel with
  | zero =>
      intro d t s position input e h
      rw [loop] at h
      cases h
  | succ fuel ih =>
      intro d t s position input e h
      cases input with
      | nil =>
          rw [loop] at h
          · cases h
          all_goals exact fun h => by cases h
      | cons c input =>
          rw [loop] at h
          cases hnext : next d position c input with
          | error e' =>
              rw [hnext] at h
              rw [← Except.error.inj h]
              exact next_error hnext
          | ok r =>
              obtain ⟨item, d', rest⟩ := r
              rw [hnext] at h
              cases item with
              | char c' => exact ih _ _ _ _ _ _ h
              | space w => exact ih _ _ _ _ _ _ h
              | tag tag =>
                  dsimp only at h
                  split at h
                  · rw [← Except.error.inj h]
                    trivial
                  · exact ih _ _ _ _ _ _ h

/-- The walk over the finished tree reports the first section without its end tag. -/
theorem parse_unclosed (input name : Bytes) (position : Nat) :
    parse input = .error (.unclosedSection name position)
      ↔ ∃ ts cs t, scan input = .ok ts ∧ Nesting.build ts = some cs
          ∧ cs.firstUnclosed sameSection = some t ∧ t.tag.name = name
          ∧ t.position = position := by
  have hloop : ∀ cs, loop input.length {} {} .start 0 input = .ok cs
      ↔ ∃ ts, scan input = .ok ts ∧ Nesting.build ts = some cs := by
    intro cs
    rw [loop_iff]
    refine exists_congr fun ts => ?_
    rw [Nesting.build, Option.map_eq_some_iff]
    constructor
    · rintro ⟨s, hts, hrun, hcs⟩
      exact ⟨hts, s, hrun, hcs⟩
    · rintro ⟨hts, s, hrun, hcs⟩
      exact ⟨s, hts, hrun, hcs⟩
  rw [parse]
  cases h : loop input.length {} {} .start 0 input with
  | error e =>
      have hof := loop_error _ _ _ _ _ _ _ h
      constructor
      · intro heq
        rw [Except.error.inj heq] at hof
        cases hof
      · rintro ⟨ts, cs, t, hts, hbuild, -⟩
        cases h.symm.trans ((hloop cs).mpr ⟨ts, hts, hbuild⟩)
  | ok cs =>
      obtain ⟨ts, hts, hbuild⟩ := (hloop cs).mp h
      dsimp only
      constructor
      · intro heq
        split at heq
        · next t ht =>
            obtain ⟨hname, hposition⟩ := ParseError.unclosedSection.inj (Except.error.inj heq)
            exact ⟨ts, cs, t, hts, hbuild, ht, hname, hposition⟩
        · cases heq
      · rintro ⟨ts', cs', t, hts', hbuild', ht, rfl, rfl⟩
        obtain rfl := Except.ok.inj (hts.symm.trans hts')
        obtain rfl := Option.some.inj (hbuild.symm.trans hbuild')
        rw [ht]

/-- The assertion on the second delimiter of a delimiter tag never fails. -/
theorem parse_no_assertion (input : Bytes) : parse input ≠ .error .assertion := by
  rw [parse]
  cases hloop : loop input.length {} {} .start 0 input with
  | error e =>
      intro h
      have hof := loop_error _ _ _ _ _ _ _ hloop
      rw [Except.error.inj h] at hof
      exact hof
  | ok cs =>
      dsimp only
      split
      · exact fun h => by cases h
      · exact fun h => by cases h

/-- `is_valid` looks for an empty message, and no error has one. -/
theorem message_ne_nil {input : Bytes} {e : ParseError} (h : parse input = .error e) :
    e.message ≠ [] := by
  cases e with
  | unclosedTag p => exact List.append_ne_nil_of_left_ne_nil (by decide +kernel) _
  | invalidDelimiter p => exact List.append_ne_nil_of_left_ne_nil (by decide +kernel) _
  | unopenedSection n p =>
      rw [ParseError.message, List.append_assoc, List.append_assoc]
      exact List.append_ne_nil_of_left_ne_nil (by decide +kernel) _
  | unclosedSection n p =>
      rw [ParseError.message, List.append_assoc, List.append_assoc]
      exact List.append_ne_nil_of_left_ne_nil (by decide +kernel) _
  | assertion => exact absurd h (parse_no_assertion input)

/-! ## Every turn reads something -/

/-- A split is a cut of the input at the delimiter. -/
theorem splitAt_eq {delimiter raw rest : Bytes} :
    ∀ {input : Bytes}, splitAt delimiter input = some (raw, rest) →
      input = raw ++ delimiter ++ rest := by
  intro input
  induction input generalizing raw with
  | nil =>
      intro h
      cases h
  | cons c input ih =>
      intro h
      rw [splitAt] at h
      split at h
      · next hprefix =>
          obtain ⟨rfl, rfl⟩ := Prod.mk.inj (Option.some.inj h)
          obtain ⟨t, ht⟩ := List.isPrefixOf_iff_prefix.mp hprefix
          rw [← ht, List.drop_left]
          rfl
      · obtain ⟨r, hr, hpair⟩ := Option.map_eq_some_iff.mp h
        obtain ⟨rfl, rfl⟩ := Prod.mk.inj hpair
        rw [ih hr]
        rfl

theorem parseTagContents_name (isUnescapedVar : Bool) (contents : Bytes) :
    (parseTagContents isUnescapedVar contents).name.length ≤ contents.length := by
  rw [parseTagContents.eq_def]
  split
  · exact Nat.le_refl _
  · cases contents with
    | nil => exact Nat.le_refl _
    | cons c name =>
        have hname := (trim_length_le name).trans (Nat.le_succ _)
        dsimp only
        split_ifs <;> first | exact hname | exact Nat.le_refl _

/-- The bytes an item stands for, at least; a tag has a start delimiter. -/
def Item.size : Item → Nat
  | .char _ => 1
  | .space w => w.length
  | .tag t => t.name.length + 1

/-- The name of a tag and what is left fit into the input, and a delimiter is never
    empty. -/
theorem readTag_size {d d' : DelimiterSet} {position : Nat} {input rest : Bytes} {t : Tag}
    (h : readTag d position input = .ok (t, d', rest)) (hd : d.begin_ ≠ []) :
    t.name.length + rest.length ≤ input.length ∧ d'.begin_ ≠ [] := by
  rw [readTag] at h
  split at h
  · cases h
  · next raw rest' hsplit =>
      have hlength : raw.length + rest'.length ≤ input.length := by
        split at hsplit
        · have hcut := congrArg List.length (splitAt_eq hsplit)
          rw [List.length_drop, List.length_append, List.length_append] at hcut
          omega
        · have hcut := congrArg List.length (splitAt_eq hsplit)
          rw [List.length_append, List.length_append] at hcut
          omega
      split at h
      · rcases parseSetDelimiterTag_cases (trim raw) with hset | ⟨d₁, hset, hbegin, -⟩
        · rw [hset] at h
          cases h
        · rw [hset] at h
          obtain ⟨rfl, hpair⟩ := Prod.mk.inj (Except.ok.inj h)
          obtain ⟨rfl, rfl⟩ := Prod.mk.inj hpair
          refine ⟨?_, hbegin⟩
          rw [List.length_nil]
          omega
      · obtain ⟨rfl, hpair⟩ := Prod.mk.inj (Except.ok.inj h)
        obtain ⟨rfl, rfl⟩ := Prod.mk.inj hpair
        refine ⟨?_, hd⟩
        have hname := parseTagContents_name (d.isDefault && input.head? == some 123) (trim raw)
        have htrim := trim_length_le raw
        omega

/-- **PROGRESS**: a step of the loop uses up at least one byte, with any delimiters.
    -/
theorem next_size {d d' : DelimiterSet} {position : Nat} {c : UInt8} {input rest : Bytes}
    {item : Item} (h : next d position c input = .ok (item, d', rest)) (hd : d.begin_ ≠ []) :
    item.size + rest.length ≤ input.length + 1 ∧ 0 < item.size ∧ d'.begin_ ≠ [] := by
  rw [next] at h
  split at h
  · next hprefix =>
      obtain ⟨r, hread, hr⟩ := map_eq_ok.mp h
      obtain ⟨t, d₁, rest₁⟩ := r
      obtain ⟨rfl, hpair⟩ := Prod.mk.inj hr
      obtain ⟨rfl, rfl⟩ := Prod.mk.inj hpair
      obtain ⟨hsize, hbegin⟩ := readTag_size hread hd
      have hpos : 0 < d.begin_.length := List.length_pos_of_ne_nil hd
      have hle : d.begin_.length ≤ (c :: input).length :=
        (List.isPrefixOf_iff_prefix.mp hprefix).length_le
      rw [List.length_drop] at hsize
      rw [List.length_cons] at hsize hle
      refine ⟨?_, Nat.succ_pos _, hbegin⟩
      show t.name.length + 1 + rest₁.length ≤ input.length + 1
      omega
  · split at h
    · next w hw =>
        obtain ⟨rfl, hpair⟩ := Prod.mk.inj (Except.ok.inj h)
        obtain ⟨rfl, rfl⟩ := Prod.mk.inj hpair
        obtain ⟨hform, hprefix⟩ := whitespaceAt_some hw
        have hle := hprefix.length_le
        refine ⟨?_, ?_, hd⟩
        · show w.length + ((c :: input).drop w.length).length ≤ input.length + 1
          rw [List.length_drop, List.length_cons] at *
          omega
        · rcases hform with rfl | ⟨x, rfl⟩ <;> exact Nat.succ_pos _
    · obtain ⟨rfl, hpair⟩ := Prod.mk.inj (Except.ok.inj h)
      obtain ⟨rfl, rfl⟩ := Prod.mk.inj hpair
      exact ⟨(Nat.add_comm 1 _).le, Nat.one_pos, hd⟩

/-- The bound of the loop is never reached: more of it changes nothing. -/
theorem scanFrom_fuel :
    ∀ (fuel fuel' : Nat) (d : DelimiterSet) (t : CurrentText) (position : Nat)
      (input : Bytes), d.begin_ ≠ [] → input.length ≤ fuel → input.length ≤ fuel' →
      scanFrom fuel d t position input = scanFrom fuel' d t position input := by
  intro fuel
  induction fuel with
  | zero =>
      intro fuel' d t position input _ hfuel _
      obtain rfl := List.length_eq_zero_iff.mp (Nat.le_zero.mp hfuel)
      cases fuel' <;> rfl
  | succ fuel ih =>
      intro fuel' d t position input hd hfuel hfuel'
      cases input with
      | nil => cases fuel' <;> rfl
      | cons c input =>
          cases fuel' with
          | zero => cases hfuel'
          | succ fuel' =>
              rw [scanFrom, scanFrom]
              cases hnext : next d position c input with
              | error e => rfl
              | ok r =>
                  obtain ⟨item, d', rest⟩ := r
                  obtain ⟨hsize, hpos, hd'⟩ := next_size hnext hd
                  rw [List.length_cons] at hfuel hfuel'
                  have hrest := fun t p =>
                    ih fuel' d' t p rest hd' (by omega) (by omega)
                  cases item with
                  | char c' => exact hrest _ _
                  | space w => exact congrArg (Except.map _) (hrest _ _)
                  | tag tag => exact congrArg (Except.map _) (hrest _ _)

/-- The tokens of a current text are texts. -/
theorem flush_tokens (t : CurrentText) {p : PlacedTag} :
    (.leaf (.tag p) : Token) ∉ t.flush.tokens := by
  rw [CurrentText.flush]
  split
  · exact List.not_mem_nil
  · intro h
    cases List.mem_singleton.mp h

/-- The name of a tag is shorter than the template it is read from. -/
theorem scanFrom_names :
    ∀ (fuel : Nat) (d : DelimiterSet) (t : CurrentText) (position : Nat) (input : Bytes)
      (ts : List Token) (p : PlacedTag), d.begin_ ≠ [] →
      scanFrom fuel d t position input = .ok ts → .leaf (.tag p) ∈ ts →
      p.tag.name.length < input.length := by
  intro fuel
  induction fuel with
  | zero =>
      intro d t position input ts p _ h hmem
      rw [scanFrom] at h
      rw [← Except.ok.inj h] at hmem
      exact absurd hmem (flush_tokens t)
  | succ fuel ih =>
      intro d t position input ts p hd h hmem
      cases input with
      | nil =>
          rw [scanFrom] at h
          · rw [← Except.ok.inj h] at hmem
            exact absurd hmem (flush_tokens t)
          all_goals exact fun h => by cases h
      | cons c input =>
          rw [scanFrom] at h
          cases hnext : next d position c input with
          | error e =>
              rw [hnext] at h
              cases h
          | ok r =>
              obtain ⟨item, d', rest⟩ := r
              obtain ⟨hsize, hpos, hd'⟩ := next_size hnext hd
              rw [hnext] at h
              rw [List.length_cons]
              cases item with
              | char c' =>
                  have hlt := ih _ _ _ _ _ _ hd' h hmem
                  omega
              | space w =>
                  obtain ⟨ts', hts', rfl⟩ := map_eq_ok.mp h
                  rcases List.mem_append.mp hmem with hm | hm
                  · exact absurd hm (flush_tokens t)
                  · rcases List.mem_cons.mp hm with hm | hm
                    · cases hm
                    · have hlt := ih _ _ _ _ _ _ hd' hts' hm
                      omega
              | tag tag =>
                  obtain ⟨ts', hts', rfl⟩ := map_eq_ok.mp h
                  rcases List.mem_append.mp hmem with hm | hm
                  · exact absurd hm (flush_tokens t)
                  · rcases List.mem_cons.mp hm with hm | hm
                    · have hp : p = ⟨tag, position⟩ := by
                        rw [tagToken] at hm
                        split at hm
                        · cases hm
                        · cases hm
                        · cases hm
                        · exact Leaf.tag.inj (Nesting.Token.leaf.inj hm)
                      rw [hp]
                      show tag.name.length < input.length + 1
                      have htag : tag.name.length + 1 + rest.length ≤ input.length + 1 := hsize
                      omega
                    · have hlt := ih _ _ _ _ _ _ hd' hts' hm
                      omega

/-- A name in a template is shorter than the template. -/
theorem parse_names {input : Bytes} {cs : Components} {p : PlacedTag}
    (h : parse input = .ok cs) (hmem : .leaf (.tag p) ∈ cs.tokens) :
    p.tag.name.length < input.length :=
  scanFrom_names _ _ _ _ _ _ p (List.cons_ne_nil _ _) ((parse_iff input cs).mp h).1 hmem

/-- The same for the loop of the parser. -/
theorem loop_fuel :
    ∀ (fuel fuel' : Nat) (d : DelimiterSet) (t : CurrentText) (s : Sections) (position : Nat)
      (input : Bytes), d.begin_ ≠ [] → input.length ≤ fuel → input.length ≤ fuel' →
      loop fuel d t s position input = loop fuel' d t s position input := by
  intro fuel
  induction fuel with
  | zero =>
      intro fuel' d t s position input _ hfuel _
      obtain rfl := List.length_eq_zero_iff.mp (Nat.le_zero.mp hfuel)
      cases fuel' <;> rfl
  | succ fuel ih =>
      intro fuel' d t s position input hd hfuel hfuel'
      cases input with
      | nil => cases fuel' <;> rfl
      | cons c input =>
          cases fuel' with
          | zero => cases hfuel'
          | succ fuel' =>
              rw [loop, loop]
              cases hnext : next d position c input with
              | error e => rfl
              | ok r =>
                  obtain ⟨item, d', rest⟩ := r
                  obtain ⟨hsize, hpos, hd'⟩ := next_size hnext hd
                  rw [List.length_cons] at hfuel hfuel'
                  have hrest := fun t s p =>
                    ih fuel' d' t s p rest hd' (by omega) (by omega)
                  cases item with
                  | char c' => exact hrest _ _ _
                  | space w => exact hrest _ _ _
                  | tag tag =>
                      dsimp only
                      cases pushTag (s.push t.flush) ⟨tag, position⟩ with
                      | none => rfl
                      | some s' => exact hrest _ _ _

/-- **THE PARSER**: one loop with a stack of open sections does what a scanner, a nesting
    of its tokens and a check of the names do one after another: it accepts the same
    templates with the same tree, and of the sections that are not closed by their own end
    tag it reports the first one; its assertion never fails, every error has a message, and
    it never turns more often than the template has bytes, whatever delimiters the template
    sets. -/
theorem parse_correct (input : Bytes) :
    (∀ cs, parse input = .ok cs
        ↔ scan input = .ok cs.tokens ∧ cs.firstUnclosed sameSection = none)
      ∧ (∀ name position, parse input = .error (.unclosedSection name position)
        ↔ ∃ ts cs t, scan input = .ok ts ∧ Nesting.build ts = some cs
            ∧ cs.firstUnclosed sameSection = some t ∧ t.tag.name = name
            ∧ t.position = position)
      ∧ parse input ≠ .error .assertion
      ∧ (∀ e, parse input = .error e → e.message ≠ [])
      ∧ ∀ more, loop (input.length + more) {} {} .start 0 input
          = loop input.length {} {} .start 0 input :=
  ⟨parse_iff input, parse_unclosed input, parse_no_assertion input, fun _ => message_ne_nil,
    fun more => loop_fuel _ _ _ _ _ _ _ (List.cons_ne_nil _ _) (Nat.le_add_right _ more)
      (Nat.le_refl _)⟩

end MustacheTree
