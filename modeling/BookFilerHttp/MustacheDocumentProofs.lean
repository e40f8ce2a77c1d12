import BookFilerHttp.MustacheRenderProofs

/-! # Mustache documents

    Templates as their authors think of them: bytes, line ends, variables in their
    three spellings, comments, partials, and sections inside each other.  `Document.show`
    writes one down, `Document.meaning` says what it stands for.

    `mustache_document` is the round trip: what is written down is scanned, nested, checked
    and rendered as the meaning of the document, for all data. -/

namespace MustacheDocument

open ByteString Mustache MustacheTree MustacheRender

/-! ## Documents -/

/-- The ends of a line. -/
inductive Newline where
  | crlf
  | lf
  | cr
  deriving DecidableEq

def Newline.show : Newline → Bytes
  | .crlf => [13, 10]
  | .lf => [10]
  | .cr => [13]

/-- The pieces without a content of their own. -/
inductive Piece where
  | byte (c : UInt8)
  | newline (n : Newline)
  | escaped (name : Bytes)
  | ampersand (name : Bytes)
  | triple (name : Bytes)
  | comment (text : Bytes)
  | partialTag (name : Bytes)

inductive Document where
  | nil
  | piece (p : Piece) (rest : Document)
  | «section» (inverted : Bool) (name : Bytes) (body rest : Document)

/-- A tag with its delimiters. -/
def tagText (contents : Bytes) : Bytes := [123, 123] ++ contents ++ [125, 125]

def Piece.show : Piece → Bytes
  | .byte c => [c]
  | .newline n => n.show
  | .escaped name => tagText name
  | .ampersand name => tagText (38 :: name)
  | .triple name => [123, 123, 123] ++ name ++ [125, 125, 125]
  | .comment text => tagText (33 :: text)
  | .partialTag name => tagText (62 :: name)

/-- The sign of a section. -/
def sectionSign (inverted : Bool) : UInt8 := if inverted then 94 else 35

def Document.show : Document → Bytes
  | .nil => []
  | .piece p rest => p.show ++ rest.show
  | .section inverted name body rest =>
      tagText (sectionSign inverted :: name) ++
        (body.show ++ (tagText (47 :: name) ++ rest.show))

/-- The contents of a tag: its end does not start inside of them. -/
abbrev Unclosed (contents : Bytes) : Prop := ¬ [125, 125] <:+: contents ++ [125]

/-- A name without blanks around it. -/
structure Name (name : Bytes) : Prop where
  trimmed : trim name = name
  unclosed : Unclosed name

/-- What a piece must not be, and must not be followed by. -/
def Piece.Plain (after : Bytes) : Piece → Prop
  | .byte c => c ≠ 10 ∧ c ≠ 13 ∧ ¬ (c = 123 ∧ after.head? = some 123)
  | .newline n => n = .cr → after.head? ≠ some 10
  | .escaped name => Name name ∧ ∀ c ∈ name.head?, c ∉ lit "\x7b#^/>&!="
  | .ampersand name => Name name
  | .triple name => Name name ∧ name.head? ≠ some 61
  | .comment text => Unclosed text
  | .partialTag name => Name name

def Document.Plain (after : Bytes) : Document → Prop
  | .nil => True
  | .piece p rest => p.Plain (rest.show ++ after) ∧ rest.Plain after
  | .section _ name body rest =>
      Name name ∧ body.Plain (tagText (47 :: name) ++ (rest.show ++ after)) ∧ rest.Plain after

/-! ## Meaning -/

/-- One part after another, unless the first one stops. -/
def andThen (a b : Option Meaning) : Option Meaning :=
  a.bind fun m => if m.stopped then some m else b.map m.append

/-- A text. -/
def textMeaning (t : Bytes) : Option Meaning := some { log := [.text t] }

/-- The children of a section in each of these contexts. -/
def sectionMeaning (body : Context → Option Meaning) (inner : List Context) :
    Option Meaning :=
  inner.foldlM (fun m c => (body c).map fun m' => m.append m'.enclosed) {}

section Meaning

variable (meaningOfPartial : Bytes → Context → Option Meaning)

def Piece.meaning (ctx : Context) : Piece → Option Meaning
  | .byte c => textMeaning [c]
  | .newline n => some { log := [.newline n.show] }
  | .escaped name => textMeaning (variableText true (ctx.get name))
  | .ampersand name => textMeaning (variableText false (ctx.get name))
  | .triple name => textMeaning (variableText false (ctx.get name))
  | .comment _ => some {}
  | .partialTag name =>
      match ctx.getPartial name with
      | none => some {}
      | some text =>
          (meaningOfPartial text ctx).map fun m => ⟨m.log, m.error, m.error.isSome⟩

/-- The tag that opens a section. -/
def sectionTag (inverted : Bool) (name : Bytes) : Tag :=
  ⟨if inverted then .sectionBeginInverted else .sectionBegin, name, none⟩

def Document.meaning : Document → Context → Option Meaning
  | .nil, _ => some {}
  | .piece p rest, ctx => andThen (p.meaning meaningOfPartial ctx) (rest.meaning ctx)
  | .section inverted name body rest, ctx =>
      andThen (sectionMeaning body.meaning (sectionContexts ctx (sectionTag inverted name)))
        (rest.meaning ctx)

end Meaning

/-! ## Parts of a template -/

theorem append_assoc (a b c : Meaning) : (a.append b).append c = a.append (b.append c) := by
  rw [Meaning.append, Meaning.append, Meaning.append, Meaning.append, List.append_assoc,
    Option.or_assoc]

/-- An empty part in front. -/
theorem empty_andThen (b : Option Meaning) : andThen (some {}) b = b := by
  rw [andThen, Option.bind_some, if_neg Bool.false_ne_true]
  cases b with
  | none => rfl
  | some m =>
      rw [Option.map_some, Meaning.append, Option.or_none]
      rfl

/-- An empty part behind. -/
theorem andThen_empty (a : Option Meaning) : andThen a (some {}) = a := by
  cases a with
  | none => rfl
  | some m =>
      rw [andThen, Option.bind_some]
      cases hstopped : m.stopped with
      | true => rfl
      | false =>
          rw [if_neg Bool.false_ne_true, Option.map_some, Meaning.append, List.append_nil,
            Option.none_or, ← hstopped]

/-- Three parts one after another; a part that stops leaves out all behind it. -/
theorem andThen_assoc (a b c : Option Meaning) :
    andThen (andThen a b) c = andThen a (andThen b c) := by
  cases a with
  | none => rfl
  | some m =>
      cases hstopped : m.stopped with
      | true => simp [andThen, hstopped]
      | false =>
          cases b with
          | none => simp [andThen, hstopped]
          | some m' =>
              cases hstopped' : m'.stopped with
              | true => simp [andThen, hstopped, hstopped', Meaning.append]
              | false =>
                  cases c with
                  | none => simp [andThen, hstopped, hstopped', Meaning.append]
                  | some m'' =>
                      simp [andThen, hstopped, hstopped', Meaning.append, Option.or_assoc]

/-- A section does not stop the walk around it. -/
theorem sectionMeaning_stopped {body : Context → Option Meaning} (inner : List Context) :
    ∀ {m m' : Meaning}, m.stopped = false →
      inner.foldlM (fun m c => (body c).map fun m' => m.append m'.enclosed) m = some m' →
      m'.stopped = false := by
  induction inner with
  | nil =>
      intro m m' hm h
      rw [← Option.some.inj h]
      exact hm
  | cons c inner ih =>
      intro m m' _ h
      rw [List.foldlM_cons] at h
      obtain ⟨m₁, hm₁, hrest⟩ := Option.bind_eq_some_iff.mp h
      obtain ⟨m₂, -, rfl⟩ := Option.map_eq_some_iff.mp hm₁
      exact ih rfl hrest

/-- A section and the children behind it. -/
theorem meaning_node (mp : Bytes → Context → Option Meaning) (t : PlacedTag)
    (body : Components) (c : Option PlacedTag) (rest : Components) (ctx : Context) :
    MustacheRender.meaning mp (.node t body c rest) ctx
      = andThen (sectionMeaning (MustacheRender.meaning mp body) (sectionContexts ctx t.tag))
          (MustacheRender.meaning mp rest ctx) := by
  rw [MustacheRender.meaning, andThen]
  show (sectionMeaning _ _).bind _ = _
  cases hm : sectionMeaning (MustacheRender.meaning mp body) (sectionContexts ctx t.tag) with
  | none => rfl
  | some m =>
      rw [Option.bind_some, Option.bind_some, if_neg]
      rw [sectionMeaning_stopped _ rfl hm]
      exact Bool.false_ne_true

/-- Children one after another. -/
theorem meaning_append (mp : Bytes → Context → Option Meaning) (f g : Components)
    (ctx : Context) :
    MustacheRender.meaning mp (f.append g) ctx
      = andThen (MustacheRender.meaning mp f ctx) (MustacheRender.meaning mp g ctx) := by
  induction f with
  | nil => exact (empty_andThen _).symm
  | leaf l rest ih =>
      rw [Nesting.Forest.append, MustacheRender.meaning, MustacheRender.meaning, ih]
      exact (andThen_assoc (meaningOfLeaf mp ctx l) _ _).symm
  | node t body c rest _ ih =>
      rw [Nesting.Forest.append, meaning_node, meaning_node, ih, andThen_assoc]

/-! ## Texts byte by byte -/

/-- A text as the texts of its bytes. -/
def spell : Event → List Event
  | .text t => t.map fun c => .text [c]
  | e => [e]

def spelled (m : Meaning) : Meaning := ⟨m.log.flatMap spell, m.error, m.stopped⟩

/-- The same, however the texts are cut. -/
def Same (a b : Option Meaning) : Prop := a.map spelled = b.map spelled

theorem spelled_append (a b : Meaning) :
    spelled (a.append b) = (spelled a).append (spelled b) := by
  rw [spelled, Meaning.append, List.flatMap_append]
  rfl

theorem spelled_enclosed (m : Meaning) : spelled m.enclosed = (spelled m).enclosed := by
  rw [spelled, Meaning.enclosed, List.flatMap_cons, List.flatMap_append]
  rfl

/-- Two parts are spelled one after another, if the first does not stop. -/
theorem map_spelled_andThen (a b : Option Meaning) :
    (andThen a b).map spelled = andThen (a.map spelled) (b.map spelled) := by
  cases a with
  | none => rfl
  | some m =>
      rw [andThen, Option.bind_some, Option.map_some, andThen, Option.bind_some]
      show Option.map spelled (if m.stopped then _ else _) = if m.stopped then _ else _
      cases m.stopped with
      | true => rfl
      | false =>
          rw [if_neg Bool.false_ne_true, if_neg Bool.false_ne_true, Option.map_map,
            Option.map_map]
          exact congrArg (fun f => b.map f) (funext fun m' => spelled_append m m')

/-- Parts can be replaced by the same parts. -/
theorem same_andThen {a a' b b' : Option Meaning} (ha : Same a a') (hb : Same b b') :
    Same (andThen a b) (andThen a' b') := by
  rw [Same, map_spelled_andThen, map_spelled_andThen, ha, hb]

/-- The children of a section can be replaced by the same children. -/
theorem same_sectionMeaning {body body' : Context → Option Meaning}
    (h : ∀ c, Same (body c) (body' c)) (inner : List Context) :
    Same (sectionMeaning body inner) (sectionMeaning body' inner) := by
  have hfold : ∀ (inner : List Context) (m m' : Meaning), spelled m = spelled m' →
      Same (inner.foldlM (fun m c => (body c).map fun m' => m.append m'.enclosed) m)
        (inner.foldlM (fun m c => (body' c).map fun m' => m.append m'.enclosed) m') := by
    intro inner
    induction inner with
    | nil => exact fun m m' hm => congrArg some hm
    | cons c inner ih =>
        intro m m' hm
        rw [List.foldlM_cons, List.foldlM_cons]
        have hc := h c
        cases hb : body c with
        | none =>
            rw [hb] at hc
            rw [Option.map_eq_none_iff.mp hc.symm]
            rfl
        | some a =>
            rw [hb] at hc
            obtain ⟨a', hb', ha'⟩ := Option.map_eq_some_iff.mp hc.symm
            rw [hb']
            refine ih _ _ ?_
            rw [spelled_append, spelled_append, spelled_enclosed, spelled_enclosed, hm, ha']
  exact hfold inner {} {} rfl

/-- A text may be cut anywhere. -/
theorem same_texts (s t : Bytes) :
    Same (textMeaning (s ++ t)) (andThen (textMeaning s) (textMeaning t)) := by
  show some (spelled _) = some (spelled _)
  simp [spelled, spell, Meaning.append]

/-- Lines that are laid out alike. -/
structure Alike (line line' : List Event) : Prop where
  text : lineText line = lineText line'
  mark : .mark ∈ line ↔ .mark ∈ line'

theorem showLine_alike {line line' : List Event} (h : Alike line line') (t : Bytes) :
    showLine line t = showLine line' t := by
  rw [showLine, showLine, h.text]
  exact if_congr (and_congr_left fun _ => h.mark) rfl rfl

/-- The bytes of a text go into the line. -/
theorem layoutFrom_texts (t : Bytes) :
    ∀ (line rest : List Event),
      layoutFrom line (t.map (fun c => Event.text [c]) ++ rest)
        = layoutFrom (line ++ t.map fun c => Event.text [c]) rest := by
  induction t with
  | nil =>
      intro line rest
      exact congrArg (layoutFrom · rest) (List.append_nil line).symm
  | cons c t ih =>
      intro line rest
      rw [List.map_cons, List.cons_append, layoutFrom]
      · rw [ih, List.append_assoc]
        rfl
      · exact fun _ h => by cases h

theorem lineText_spelled (t : Bytes) : lineText (t.map fun c => Event.text [c]) = t := by
  induction t with
  | nil => rfl
  | cons c t ih => exact congrArg (c :: ·) ih

/-- How the texts of a log are cut does not matter. -/
theorem layoutFrom_spell (log : List Event) :
    ∀ line line' : List Event, Alike line line' →
      layoutFrom line (log.flatMap spell) = layoutFrom line' log := by
  induction log with
  | nil => exact fun line line' h => showLine_alike h []
  | cons e log ih =>
      intro line line' h
      rw [List.flatMap_cons]
      cases e with
      | newline t =>
          show showLine line t ++ layoutFrom [] (log.flatMap spell) = _
          rw [showLine_alike h, ih [] [] ⟨rfl, Iff.rfl⟩, layoutFrom]
      | mark =>
          show layoutFrom (line ++ [.mark]) (log.flatMap spell) = _
          rw [layoutFrom]
          · refine ih _ _ ⟨?_, ?_⟩
            · rw [lineText_append, lineText_append, h.text]
            · simp
          · exact fun _ h => by cases h
      | text t =>
          show layoutFrom line (t.map (fun c => Event.text [c]) ++ log.flatMap spell) = _
          rw [layoutFrom_texts, layoutFrom]
          · refine ih _ _ ⟨?_, ?_⟩
            · have happend : lineText (line ++ t.map fun c => Event.text [c])
                  = lineText line ++ lineText (t.map fun c => Event.text [c]) :=
                List.flatMap_append
              rw [happend, lineText_spelled, lineText_append, h.text]
              exact congrArg (lineText line' ++ ·) (List.append_nil t).symm
            · simp [h.mark]
          · exact fun _ h => by cases h

/-- The same parts are laid out the same. -/
theorem same_layout {a b : Option Meaning} (h : Same a b) :
    a.map (fun m => layout m.log) = b.map fun m => layout m.log := by
  have hspelled : ∀ c : Option Meaning,
      c.map (fun m => layout m.log) = (c.map spelled).map fun m => layout m.log := by
    intro c
    rw [Option.map_map]
    refine congrArg (fun f => c.map f) (funext fun m => ?_)
    exact (layoutFrom_spell m.log [] [] ⟨rfl, Iff.rfl⟩).symm
  rw [hspelled, hspelled b, h]

/-! ## The scanner without its bound -/

/-- The tokens from a place of the input on. -/
def scanAt (d : DelimiterSet) (t : CurrentText) (position : Nat) (input : Bytes) :
    Except ParseError (List MustacheTree.Token) :=
  scanFrom input.length d t position input

/-- The tokens in front of others. -/
def Tokens (f : Components) (x : Except ParseError (List MustacheTree.Token)) :
    Except ParseError (List MustacheTree.Token) :=
  x.map (f.tokens ++ ·)

/-- The tokens of two forests in front of others. -/
theorem tokens_append (f g : Components) (x : Except ParseError (List MustacheTree.Token)) :
    Tokens (f.append g) x = Tokens f (Tokens g x) := by
  cases x with
  | error e => rfl
  | ok ts =>
      refine congrArg Except.ok ?_
      show (f.append g).tokens ++ ts = f.tokens ++ (g.tokens ++ ts)
      rw [Nesting.Forest.tokens_append, List.append_assoc]

section Scan

variable {d d' : DelimiterSet} {position : Nat} {c : UInt8} {input rest : Bytes}

/-- A character goes into the current text. -/
theorem scanAt_char {c' : UInt8} (t : CurrentText) (hd : d.begin_ ≠ [])
    (h : next d position c input = .ok (.char c', d', rest)) :
    ∃ position', scanAt d t position (c :: input)
      = scanAt d' (t.add c' position) position' rest := by
  obtain ⟨hsize, hpos, hd'⟩ := next_size h hd
  refine ⟨position + ((c :: input).length - rest.length), ?_⟩
  rw [scanAt, List.length_cons, scanFrom, h]
  exact scanFrom_fuel _ _ _ _ _ _ hd' (by omega) (Nat.le_refl _)

/-- A blank or a line end stands behind the current text. -/
theorem scanAt_space {w : Bytes} (t : CurrentText) (hd : d.begin_ ≠ [])
    (h : next d position c input = .ok (.space w, d', rest)) :
    ∃ position', scanAt d t position (c :: input)
      = Tokens (t.flush.append (.leaf (.text w position) .nil))
          (scanAt d' {} position' rest) := by
  obtain ⟨hsize, hpos, hd'⟩ := next_size h hd
  refine ⟨position + ((c :: input).length - rest.length), ?_⟩
  rw [scanAt, List.length_cons, scanFrom, h]
  dsimp only
  rw [scanFrom_fuel input.length rest.length d' _ _ rest hd' (by omega) (Nat.le_refl _),
    Tokens, Nesting.Forest.tokens_append]
  refine congrArg (fun f => Except.map f _) (funext fun ts => ?_)
  rw [List.append_assoc]
  rfl

/-- A tag stands behind the current text. -/
theorem scanAt_tag {tag : Tag} (t : CurrentText) (hd : d.begin_ ≠ [])
    (h : next d position c input = .ok (.tag tag, d', rest)) :
    ∃ position', scanAt d t position (c :: input)
      = Tokens t.flush ((scanAt d' {} position' rest).map
          (tagToken ⟨tag, position⟩ :: ·)) := by
  obtain ⟨hsize, hpos, hd'⟩ := next_size h hd
  refine ⟨position + ((c :: input).length - rest.length), ?_⟩
  rw [scanAt, List.length_cons, scanFrom, h]
  dsimp only
  rw [scanFrom_fuel input.length rest.length d' _ _ rest hd' (by omega) (Nat.le_refl _)]
  rw [scanAt]
  cases scanFrom rest.length d' {} _ rest with
  | error e => rfl
  | ok ts => rfl

end Scan

/-! ## The scanner reads what a document shows -/

theorem default_begin : ({} : DelimiterSet).begin_ = [123, 123] := by decide +kernel

theorem default_end : lit "\x7d\x7d" = [125, 125] := by decide +kernel

theorem default_isDefault : ({} : DelimiterSet).isDefault = true := by decide +kernel

theorem default_begin_ne : ({} : DelimiterSet).begin_ ≠ [] := by
  rw [default_begin]
  exact List.cons_ne_nil _ _

/-- A tag is read up to the first two closing braces. -/
theorem readTag_tag {contents : Bytes} (position : Nat) (rest : Bytes)
    (hclose : Unclosed contents) (hopen : contents.head? ≠ some 123)
    (hset : (trim contents).head? ≠ some 61) :
    readTag {} position (contents ++ [125, 125] ++ rest)
      = .ok (MustacheTree.parseTagContents false (trim contents), {}, rest) := by
  have hdefault : (({} : DelimiterSet).isDefault
      && (contents ++ [125, 125] ++ rest).head? == some 123) = false := by
    rw [Bool.and_eq_false_iff]
    refine Or.inr (beq_eq_false_iff_ne.mpr ?_)
    cases contents with
    | nil => exact fun h => by cases h
    | cons c cs => exact hopen
  rw [MustacheTree.readTag, hdefault]
  dsimp only
  rw [if_neg Bool.false_ne_true, default_end, splitAt_first rest hclose]
  dsimp only
  rw [if_neg hset]

/-- A tag with three braces is read up to the first three closing ones. -/
theorem readTag_triple {name : Bytes} (position : Nat) (rest : Bytes) (h : Name name)
    (hset : name.head? ≠ some 61) :
    readTag {} position (123 :: (name ++ [125, 125, 125] ++ rest))
      = .ok (⟨.unescapedVariable, name, none⟩, {}, rest) := by
  have hdefault : (({} : DelimiterSet).isDefault
      && (123 :: (name ++ [125, 125, 125] ++ rest)).head? == some 123) = true := by
    rw [default_isDefault]
    rfl
  have hthree : lit "\x7d\x7d\x7d" = [125, 125, 125] := by decide +kernel
  -- three braces in front of the end would hold two
  have hclose : ¬ [125, 125, 125] <:+: name ++ ([125, 125, 125] : Bytes).dropLast := by
    rintro ⟨s, t, hst⟩
    refine h.unclosed ⟨s, (125 :: t).dropLast, ?_⟩
    have hlast := congrArg List.dropLast hst
    simpa [List.dropLast_append_of_ne_nil] using hlast
  rw [MustacheTree.readTag, hdefault]
  dsimp only
  rw [if_pos rfl, hthree, List.drop_succ_cons, List.drop_zero, splitAt_first rest hclose]
  dsimp only
  rw [h.trimmed, if_neg hset]
  rfl

/-- Two opening braces start a tag. -/
theorem next_braces (position : Nat) (input : Bytes) :
    next {} position 123 (123 :: input)
      = (readTag {} position input).map fun r => (.tag r.1, r.2) := by
  have hprefix : ({} : DelimiterSet).begin_.isPrefixOf (123 :: 123 :: input) = true := by
    rw [default_begin]
    exact List.isPrefixOf_iff_prefix.mpr ⟨input, rfl⟩
  rw [next, if_pos hprefix, default_begin]
  rfl

theorem next_tag {position : Nat} {input rest : Bytes} {tag : Tag}
    (h : readTag {} position input = .ok (tag, {}, rest)) :
    next {} position 123 (123 :: input) = .ok (.tag tag, {}, rest) := by
  rw [next_braces, h]
  rfl

/-- A byte that starts no tag is a blank, the start of a line end, or a character. -/
theorem next_other {position : Nat} {c : UInt8} {input : Bytes}
    (h : ¬ (c = 123 ∧ input.head? = some 123)) :
    next {} position c input
      = (whitespaceAt (c :: input)).elim (.ok (.char c, {}, input))
          fun w => .ok (.space w, {}, (c :: input).drop w.length) := by
  have hprefix : ¬ ({} : DelimiterSet).begin_.isPrefixOf (c :: input) = true := by
    rw [default_begin]
    intro hp
    obtain ⟨t, ht⟩ := List.isPrefixOf_iff_prefix.mp hp
    obtain ⟨hc, hinput⟩ := List.cons.inj ht
    refine h ⟨hc.symm, ?_⟩
    rw [← hinput]
    rfl
  rw [next, if_neg hprefix]
  cases whitespaceAt (c :: input) <;> rfl

/-- A name is trimmed off behind its sign. -/
theorem trim_sign {name : Bytes} (h : Name name) {sign : UInt8} (hsign : isspace sign = false) :
    trim (sign :: name) = sign :: name := by
  rw [trim, List.dropWhile_cons, hsign, if_neg Bool.false_ne_true,
    List.rdropWhile_eq_self_iff]
  intro hne
  cases name with
  | nil =>
      rw [List.getLast_singleton, hsign]
      exact Bool.false_ne_true
  | cons c cs =>
      have hlast := trim_last (c :: cs) (c := (c :: cs).getLast (List.cons_ne_nil _ _)) (by
        rw [h.trimmed, List.getLast?_eq_some_getLast (List.cons_ne_nil _ _)])
      rw [List.getLast_cons (List.cons_ne_nil _ _), hlast]
      exact Bool.false_ne_true

/-- A sign in front of the contents, other than a closing brace. -/
theorem unclosed_cons {contents : Bytes} {sign : UInt8} (h : Unclosed contents)
    (hsign : sign ≠ 125) : Unclosed (sign :: contents) := by
  rw [Unclosed, List.cons_append, List.infix_cons_iff, not_or]
  refine ⟨fun hp => hsign ?_, h⟩
  obtain ⟨t, ht⟩ := hp
  exact (List.cons.inj ht).1.symm

/-- The tag of a name with its sign. -/
theorem readTag_sign {name : Bytes} {sign : UInt8} (position : Nat) (rest : Bytes)
    (h : Name name) (hspace : isspace sign = false) (hsign : sign ∉ ([123, 125, 61] : Bytes)) :
    readTag {} position ((sign :: name) ++ [125, 125] ++ rest)
      = .ok (MustacheTree.parseTagContents false (sign :: name), {}, rest) := by
  simp only [List.mem_cons, List.not_mem_nil, or_false, not_or] at hsign
  obtain ⟨hopen, hclose, hset⟩ := hsign
  have htrim := trim_sign h hspace
  rw [readTag_tag position rest (unclosed_cons h.unclosed hclose), htrim]
  · exact fun h₁ => hopen (Option.some.inj h₁)
  · rw [htrim]
    exact fun h₁ => hset (Option.some.inj h₁)

/-! ## The parts of a document, one after another -/

/-- The current text as a part of a template. -/
def pending (t : CurrentText) : Option Meaning := textMeaning t.text

/-- A current text is inside a line. -/
def Inline (t : CurrentText) : Prop := 10 ∉ t.text ∧ 13 ∉ t.text

/-- A flushed text has no section to close. -/
theorem flush_closed (t : CurrentText) : t.flush.firstUnclosed sameSection = none := by
  rw [CurrentText.flush]
  split <;> rfl

/-- The current text means itself when it becomes a component. -/
theorem meaning_flush {t : CurrentText} (h : Inline t) (mp : Bytes → Context → Option Meaning)
    (ctx : Context) : Same (MustacheRender.meaning mp t.flush ctx) (pending t) := by
  rw [CurrentText.flush]
  split
  · next hnil =>
      rw [pending, hnil]
      rfl
  · have hline : isNewline t.text = false := by
      rw [isNewline, Bool.or_eq_false_iff, Bool.or_eq_false_iff, beq_eq_false_iff_ne,
        beq_eq_false_iff_ne, beq_eq_false_iff_ne]
      refine ⟨⟨?_, ?_⟩, ?_⟩
      · exact fun heq => h.2 (heq ▸ List.mem_cons_self ..)
      · exact fun heq => h.1 (heq ▸ List.mem_cons_self ..)
      · exact fun heq => h.2 (heq ▸ List.mem_cons_self ..)
    rw [MustacheRender.meaning, meaningOfLeaf, hline]
    rfl

/-- What a part of a template means, for each way to render partials. -/
abbrev Denotation := (Bytes → Context → Option Meaning) → Context → Option Meaning

/-- A part is scanned into the tokens of a tree of closed sections and a current text,
    which mean what the current text before and the part mean. -/
def Reads (t : CurrentText) (position : Nat) (shown after : Bytes) (m : Denotation) : Prop :=
  ∃ (cs : Components) (t' : CurrentText) (position' : Nat),
    cs.firstUnclosed sameSection = none ∧ Inline t'
      ∧ scanAt {} t position (shown ++ after) = Tokens cs (scanAt {} t' position' after)
      ∧ ∀ mp ctx, Same (andThen (MustacheRender.meaning mp cs ctx) (pending t'))
          (andThen (pending t) (m mp ctx))

/-- **PARTS ONE AFTER ANOTHER**: the second goes on from the current text of the first. -/
theorem reads_then {t : CurrentText} {position : Nat} {shown shown' after : Bytes}
    {m m' : Denotation} (h : Reads t position shown (shown' ++ after) m)
    (h' : ∀ t' position', Inline t' → Reads t' position' shown' after m') :
    Reads t position (shown ++ shown') after fun mp ctx => andThen (m mp ctx) (m' mp ctx) := by
  obtain ⟨cs, t₁, p₁, hclosed, hinline, hscan, hsame⟩ := h
  obtain ⟨cs', t₂, p₂, hclosed', hinline', hscan', hsame'⟩ := h' t₁ p₁ hinline
  refine ⟨cs.append cs', t₂, p₂, ?_, hinline', ?_, ?_⟩
  · exact Nesting.Forest.firstUnclosed_append_eq_none.mpr ⟨hclosed, hclosed'⟩
  · rw [List.append_assoc, hscan, hscan', tokens_append]
  · intro mp ctx
    rw [meaning_append, andThen_assoc, ← andThen_assoc (pending t)]
    have h₁ : Same (andThen (MustacheRender.meaning mp cs ctx)
          (andThen (MustacheRender.meaning mp cs' ctx) (pending t₂)))
        (andThen (MustacheRender.meaning mp cs ctx) (andThen (pending t₁) (m' mp ctx))) :=
      same_andThen rfl (hsame' mp ctx)
    have h₂ : Same (andThen (andThen (MustacheRender.meaning mp cs ctx) (pending t₁)) (m' mp ctx))
        (andThen (andThen (pending t) (m mp ctx)) (m' mp ctx)) :=
      same_andThen (hsame mp ctx) rfl
    rw [andThen_assoc] at h₂
    exact h₁.trans h₂

theorem inline_empty : Inline {} := ⟨List.not_mem_nil, List.not_mem_nil⟩

/-- The meaning of a flushed text and what follows it. -/
theorem same_flush {t : CurrentText} (h : Inline t) {mp : Bytes → Context → Option Meaning}
    {ctx : Context} {cs : Components} {m : Option Meaning}
    (hcs : Same (MustacheRender.meaning mp cs ctx) m) :
    Same (andThen (MustacheRender.meaning mp (t.flush.append cs) ctx) (pending {}))
      (andThen (pending t) m) := by
  have hpending : Same (pending {}) (some {}) := rfl
  rw [meaning_append]
  have h₁ := same_andThen (same_andThen (meaning_flush h mp ctx) hcs) hpending
  rw [andThen_empty] at h₁
  exact h₁

/-- The current text with one character more. -/
theorem add_text (t : CurrentText) (c : UInt8) (position : Nat) :
    (t.add c position).text = t.text ++ [c] := by
  rw [CurrentText.add]
  split
  · next hnil =>
      rw [hnil]
      rfl
  · rfl

/-- A character. -/
theorem reads_char {t : CurrentText} {position : Nat} {c : UInt8} {after : Bytes}
    (ht : Inline t) (hc : c ≠ 10 ∧ c ≠ 13)
    (hnext : next {} position c after = .ok (.char c, {}, after)) :
    Reads t position [c] after fun _ _ => textMeaning [c] := by
  obtain ⟨p', hscan⟩ := scanAt_char t default_begin_ne hnext
  have htext := add_text t c position
  refine ⟨.nil, t.add c position, p', rfl, ?_, ?_, ?_⟩
  · rw [Inline, htext, List.mem_append, List.mem_append, List.mem_singleton,
      List.mem_singleton]
    exact ⟨fun h => h.elim ht.1 (fun h => hc.1 h.symm), fun h => h.elim ht.2 (fun h => hc.2 h.symm)⟩
  · rw [List.singleton_append, hscan]
    cases scanAt {} (t.add c position) p' after <;> rfl
  · intro mp ctx
    show Same (andThen (some {}) _) _
    rw [empty_andThen, pending, htext]
    exact same_texts t.text [c]

/-- A blank or a line end. -/
theorem reads_space {t : CurrentText} {position : Nat} {c : UInt8} {w after : Bytes}
    (ht : Inline t)
    (hnext : next {} position c (w ++ after) = .ok (.space (c :: w), {}, after)) :
    Reads t position (c :: w) after fun _ _ =>
      some { log := [if isNewline (c :: w) then .newline (c :: w) else .text (c :: w)] } := by
  obtain ⟨p', hscan⟩ := scanAt_space t default_begin_ne hnext
  refine ⟨_, {}, p', ?_, inline_empty, hscan, fun mp ctx => same_flush ht ?_⟩
  · exact Nesting.Forest.firstUnclosed_append_eq_none.mpr ⟨flush_closed t, rfl⟩
  · rw [MustacheRender.meaning, meaningOfLeaf]
    rfl

/-- A tag that stands alone. -/
theorem reads_tag {t : CurrentText} {position : Nat} {input after : Bytes} {tag : Tag}
    (ht : Inline t)
    (hread : ∀ position, readTag {} position (input ++ after) = .ok (tag, {}, after))
    (halone : ∀ position, tagToken ⟨tag, position⟩ = .leaf (.tag ⟨tag, position⟩)) :
    Reads t position (123 :: 123 :: input) after fun mp ctx =>
      meaningOfLeaf mp ctx (.tag ⟨tag, position⟩) := by
  obtain ⟨p', hscan⟩ := scanAt_tag t default_begin_ne (next_tag (hread position))
  refine ⟨t.flush.append (.leaf (.tag ⟨tag, position⟩) .nil), {}, p', ?_, inline_empty, ?_,
    fun mp ctx => same_flush ht ?_⟩
  · exact Nesting.Forest.firstUnclosed_append_eq_none.mpr ⟨flush_closed t, rfl⟩
  · rw [List.cons_append, List.cons_append, hscan, halone, tokens_append]
    rfl
  · show Same (andThen (meaningOfLeaf mp ctx _) (some {})) _
    rw [andThen_empty]
    rfl

/-- A section around its children. -/
theorem reads_section {t : CurrentText} {position : Nat} {inverted : Bool}
    {name shown after : Bytes} {m : Denotation} (ht : Inline t) (hname : Name name)
    (hbody : ∀ t' position', Inline t' →
      Reads t' position' shown (tagText (47 :: name) ++ after) m) :
    Reads t position (tagText (sectionSign inverted :: name) ++ (shown ++ tagText (47 :: name)))
      after fun mp ctx =>
        sectionMeaning (m mp) (sectionContexts ctx (sectionTag inverted name)) := by
  have hopening : ∀ (position : Nat) (rest : Bytes),
      readTag {} position ((sectionSign inverted :: name) ++ [125, 125] ++ rest)
        = .ok (sectionTag inverted name, {}, rest) := by
    intro position rest
    cases inverted with
    | false =>
        rw [sectionSign, if_neg Bool.false_ne_true,
          readTag_sign position rest hname (by decide) (by decide)]
        show Except.ok (Tag.mk _ (trim name) none, _, rest) = _
        rw [hname.trimmed]
        rfl
    | true =>
        rw [sectionSign, if_pos rfl,
          readTag_sign position rest hname (by decide) (by decide)]
        show Except.ok (Tag.mk _ (trim name) none, _, rest) = _
        rw [hname.trimmed]
        rfl
  have hclosing : ∀ (position : Nat) (rest : Bytes),
      readTag {} position ((47 :: name) ++ [125, 125] ++ rest)
        = .ok (⟨.sectionEnd, name, none⟩, {}, rest) := by
    intro position rest
    rw [readTag_sign position rest hname (by decide) (by decide)]
    show Except.ok (Tag.mk _ (trim name) none, _, rest) = _
    rw [hname.trimmed]
  have htoken : ∀ position, tagToken ⟨sectionTag inverted name, position⟩
      = .opening ⟨sectionTag inverted name, position⟩ := by
    intro position
    cases inverted <;> rfl
  obtain ⟨p₁, hscan₁⟩ := scanAt_tag t default_begin_ne
    (next_tag (hopening position (shown ++ (tagText (47 :: name) ++ after))))
  obtain ⟨cs, t', p₂, hclosed, hinline, hscan₂, hsame⟩ := hbody {} p₁ inline_empty
  obtain ⟨p₃, hscan₃⟩ := scanAt_tag t' default_begin_ne
    (next_tag (hclosing p₂ after))
  refine ⟨t.flush.append (.node ⟨sectionTag inverted name, position⟩ (cs.append t'.flush)
    (some ⟨⟨.sectionEnd, name, none⟩, p₂⟩) .nil), {}, p₃, ?_, inline_empty, ?_, ?_⟩
  · have hbodyclosed : (cs.append t'.flush).firstUnclosed sameSection = none :=
      Nesting.Forest.firstUnclosed_append_eq_none.mpr ⟨hclosed, flush_closed t'⟩
    have hname' : sameSection ⟨sectionTag inverted name, position⟩
        ⟨⟨.sectionEnd, name, none⟩, p₂⟩ = true := beq_self_eq_true name
    refine Nesting.Forest.firstUnclosed_append_eq_none.mpr ⟨flush_closed t, ?_⟩
    rw [Nesting.Forest.firstUnclosed, Option.any_some, if_pos hname', hbodyclosed]
    rfl
  · have hshow : tagText (sectionSign inverted :: name) ++ (shown ++ tagText (47 :: name)) ++ after
        = 123 :: 123 :: ((sectionSign inverted :: name) ++ [125, 125]
          ++ (shown ++ (tagText (47 :: name) ++ after))) := by
      simp [tagText]
    have hshow' : tagText (47 :: name) ++ after
        = 123 :: 123 :: ((47 :: name) ++ [125, 125] ++ after) := by
      simp [tagText]
    rw [hshow, hscan₁, hscan₂, hshow', hscan₃, htoken]
    cases scanAt {} {} p₃ after with
    | error e => rfl
    | ok ts =>
        refine congrArg Except.ok ?_
        simp [Nesting.Forest.tokens_append, Nesting.Forest.tokens, tagToken]
  · intro mp ctx
    refine same_flush ht ?_
    rw [meaning_node]
    show Same (andThen _ (some {})) _
    rw [andThen_empty]
    refine same_sectionMeaning (fun c => ?_) _
    have hempty : Same (andThen (pending {}) (m mp c)) (m mp c) := by
      have h₁ : Same (andThen (pending {}) (m mp c)) (andThen (some {}) (m mp c)) :=
        same_andThen rfl rfl
      rwa [empty_andThen] at h₁
    rw [meaning_append]
    exact ((same_andThen rfl (meaning_flush hinline mp c)).trans (hsame mp c)).trans hempty

/-! ## The round trip -/

/-- A byte that starts no line end is a blank or none. -/
theorem whitespaceAt_byte {c : UInt8} (after : Bytes) (hlf : c ≠ 10) (hcr : c ≠ 13) :
    whitespaceAt (c :: after) = if c = 32 ∨ c = 9 then some [c] else none := by
  have hprefix : ∀ x : UInt8, ([x] : Bytes).isPrefixOf (c :: after) = (x == c) := by
    intro x
    rw [List.isPrefixOf, List.isPrefixOf, Bool.and_true]
  have hcrlf : ([13, 10] : Bytes).isPrefixOf (c :: after) = false := by
    rw [List.isPrefixOf, beq_eq_false_iff_ne.mpr (Ne.symm hcr), Bool.false_and]
  rw [whitespaceAt, List.find?_cons, hcrlf, List.find?_cons, hprefix,
    beq_eq_false_iff_ne.mpr (Ne.symm hlf), List.find?_cons, hprefix,
    beq_eq_false_iff_ne.mpr (Ne.symm hcr), List.find?_cons, hprefix, List.find?_cons, hprefix]
  by_cases hblank : c = 32
  · subst hblank
    rfl
  · by_cases htab : c = 9
    · subst htab
      rfl
    · rw [beq_eq_false_iff_ne.mpr (Ne.symm hblank), beq_eq_false_iff_ne.mpr (Ne.symm htab),
        if_neg (fun h => h.elim hblank htab)]
      rfl

/-- A line end is read as a whole. -/
theorem whitespaceAt_newline {n : Newline} {after : Bytes}
    (h : n = .cr → after.head? ≠ some 10) : whitespaceAt (n.show ++ after) = some n.show := by
  cases n with
  | crlf => rfl
  | lf => rfl
  | cr =>
      have hcrlf : ([13, 10] : Bytes).isPrefixOf (13 :: after) = false := by
        cases after with
        | nil => rfl
        | cons c cs =>
            have hc : (10 == c) = false :=
              beq_eq_false_iff_ne.mpr fun hc => h rfl (congrArg some hc.symm)
            rw [List.isPrefixOf, List.isPrefixOf, hc]
            rfl
      show whitespaceAt (13 :: after) = _
      rw [whitespaceAt, List.find?_cons, hcrlf]
      rfl

/-- A text without a sign in front is the name of a variable. -/
theorem parseTagContents_start {name : Bytes}
    (h : ∀ c ∈ name.head?, ∀ x ∈ lit "\x7b#^/>&!=", c ≠ x) :
    MustacheTree.parseTagContents false name = ⟨.variable, name, none⟩ := by
  cases name with
  | nil => rfl
  | cons c cs =>
      have hne := h c rfl
      rw [MustacheTree.parseTagContents.eq_def, if_neg Bool.false_ne_true]
      dsimp only
      rw [if_neg (hne 35 (by decide +kernel)), if_neg (hne 94 (by decide +kernel)),
        if_neg (hne 47 (by decide +kernel)), if_neg (hne 62 (by decide +kernel)),
        if_neg (hne 38 (by decide +kernel)), if_neg (hne 33 (by decide +kernel))]

/-- What is not a blank stays in front. -/
theorem trim_cons (s : Bytes) {c : UInt8} (h : isspace c = false) :
    ∃ r, trim (c :: s) = c :: r := by
  rw [trim, List.dropWhile_cons, h, if_neg Bool.false_ne_true]
  obtain ⟨u, hu⟩ := List.rdropWhile_prefix isspace (c :: s)
  cases hcut : (c :: s).rdropWhile isspace with
  | nil =>
      have hall := List.rdropWhile_eq_nil_iff.mp hcut c (List.mem_cons_self ..)
      rw [h] at hall
      cases hall
  | cons x xs =>
      rw [hcut] at hu
      rw [(List.cons.inj hu).1]
      exact ⟨xs, rfl⟩

/-- A piece is read as what it means. -/
theorem reads_piece {p : Piece} {after : Bytes} (hp : p.Plain after) {t : CurrentText}
    (position : Nat) (ht : Inline t) :
    Reads t position p.show after fun mp ctx => p.meaning mp ctx := by
  cases p with
  | byte c =>
      obtain ⟨hlf, hcr, hbrace⟩ := hp
      have hnext := @next_other position c after hbrace
      rw [whitespaceAt_byte after hlf hcr] at hnext
      by_cases hblank : c = 32 ∨ c = 9
      · rw [if_pos hblank] at hnext
        have hread := @reads_space t position c [] after ht hnext
        rcases hblank with rfl | rfl <;> exact hread
      · rw [if_neg hblank] at hnext
        exact reads_char ht ⟨hlf, hcr⟩ hnext
  | newline n =>
      have hspace := whitespaceAt_newline hp
      have hread : ∀ c w, n.show = c :: w → c ≠ 123 →
          Reads t position (c :: w) after fun _ _ =>
            some { log := [if isNewline (c :: w) then .newline (c :: w) else .text (c :: w)] } := by
        intro c w hshow hc
        rw [hshow] at hspace
        refine reads_space ht ?_
        rw [next_other (fun h => hc h.1), ← List.cons_append, hspace]
        show Except.ok (Item.space (c :: w), _, ((c :: w) ++ after).drop (c :: w).length) = _
        rw [List.drop_left]
      cases n with
      | crlf => exact hread 13 [10] rfl (by decide)
      | lf => exact hread 10 [] rfl (by decide)
      | cr => exact hread 13 [] rfl (by decide)
  | escaped name =>
      obtain ⟨hname, hstart⟩ := hp
      have hne : ∀ c ∈ name.head?, ∀ x ∈ lit "\x7b#^/>&!=", c ≠ x :=
        fun c hc x hx heq => hstart c hc (heq ▸ hx)
      refine @reads_tag t position (name ++ [125, 125]) after ⟨.variable, name, none⟩ ht ?_
        fun _ => rfl
      intro position
      rw [readTag_tag position after hname.unclosed, hname.trimmed, parseTagContents_start hne]
      · exact fun h => hne 123 h 123 (by decide +kernel) rfl
      · rw [hname.trimmed]
        exact fun h => hne 61 h 61 (by decide +kernel) rfl
  | ampersand name =>
      refine @reads_tag t position ((38 :: name) ++ [125, 125]) after
        ⟨.unescapedVariable, name, none⟩ ht ?_ fun _ => rfl
      intro position
      rw [readTag_sign position after hp (by decide) (by decide)]
      show Except.ok (Tag.mk _ (trim name) none, _, after) = _
      rw [hp.trimmed]
  | triple name =>
      refine @reads_tag t position (123 :: (name ++ [125, 125, 125])) after
        ⟨.unescapedVariable, name, none⟩ ht ?_ fun _ => rfl
      exact fun position => readTag_triple position after hp.1 hp.2
  | comment text =>
      obtain ⟨r, hr⟩ := trim_cons text (c := 33) (by decide)
      refine @reads_tag t position ((33 :: text) ++ [125, 125]) after
        ⟨.comment, trim r, none⟩ ht ?_ fun _ => rfl
      intro position
      rw [readTag_tag position after (unclosed_cons hp (by decide)), hr]
      · rfl
      · exact fun h => by cases h
      · rw [hr]
        exact fun h => by cases h
  | partialTag name =>
      refine @reads_tag t position ((62 :: name) ++ [125, 125]) after
        ⟨.partialTag, name, none⟩ ht ?_ fun _ => rfl
      intro position
      rw [readTag_sign position after hp (by decide) (by decide)]
      show Except.ok (Tag.mk _ (trim name) none, _, after) = _
      rw [hp.trimmed]

/-- Every part of a document is read as what it means. -/
theorem reads_document (doc : Document) :
    ∀ (after : Bytes) (t : CurrentText) (position : Nat), doc.Plain after → Inline t →
      Reads t position doc.show after fun mp ctx => doc.meaning mp ctx := by
  induction doc with
  | nil =>
      intro after t position _ ht
      refine ⟨.nil, t, position, rfl, ht, ?_, ?_⟩
      · show scanAt {} t position after = _
        cases scanAt {} t position after <;> rfl
      · intro mp ctx
        show Same (andThen (some {}) _) (andThen _ (some {}))
        rw [empty_andThen, andThen_empty]
        rfl
  | piece p rest ih =>
      intro after t position hplain ht
      exact reads_then (reads_piece hplain.1 position ht)
        fun t' position' ht' => ih after t' position' hplain.2 ht'
  | «section» inverted name body rest ihbody ihrest =>
      intro after t position hplain ht
      obtain ⟨hname, hbody, hrest⟩ := hplain
      have hsection := @reads_section t position inverted name body.show (rest.show ++ after)
        (fun mp ctx => body.meaning mp ctx) ht hname
        fun t' position' ht' => ihbody _ t' position' hbody ht'
      have hall := reads_then hsection fun t' position' ht' => ihrest after t' position' hrest ht'
      rw [List.append_assoc, List.append_assoc] at hall
      exact hall

/-- **ROUND TRIP**: a document that is written down is scanned, nested and checked without
    an error, and rendered as the document is meant, whatever the data and however deep
    partials may nest. -/
theorem mustache_document (doc : Document) (depth : Nat) (data : MustacheRender.Data) (h : doc.Plain []) :
    MustacheRender.mustache depth doc.show data
      = (doc.meaning (meaningOfPartial depth) [data]).map fun m => layout m.log := by
  obtain ⟨cs, t', p', hclosed, hinline, hscan, hsame⟩ :=
    reads_document doc [] {} 0 h inline_empty
  have hparse : MustacheTree.parse doc.show = .ok (cs.append t'.flush) := by
    refine (parse_iff _ _).mpr ⟨?_, ?_⟩
    · rw [List.append_nil] at hscan
      show scanAt {} {} 0 doc.show = _
      rw [hscan, Nesting.Forest.tokens_append]
      rfl
    · exact Nesting.Forest.firstUnclosed_append_eq_none.mpr ⟨hclosed, flush_closed t'⟩
  rw [MustacheRender.mustache, hparse]
  dsimp only
  rw [render_layout, meaning_append]
  refine same_layout ?_
  have hstart : Same (andThen (pending {}) (doc.meaning (meaningOfPartial depth) [data]))
      (andThen (some {}) (doc.meaning (meaningOfPartial depth) [data])) := same_andThen rfl rfl
  rw [empty_andThen] at hstart
  exact ((same_andThen rfl (meaning_flush hinline _ _)).trans (hsame _ _)).trans hstart

/-- A section over a list: the lines of its tags are left out, its items are escaped. -/
theorem mustache_document_list :
    MustacheRender.mustache 0 (lit "\x7b\x7b#a\x7d\x7d\n-\x7b\x7b.\x7d\x7d\n\x7b\x7b/a\x7d\x7d")
        (.object [(lit "a", .list [.string (lit "x"), .string (lit "<")])])
      = some (lit "-x\n-&lt;\n") := by
  have hname : Name (lit "a") := ⟨by decide +kernel, by decide +kernel⟩
  have hdot : Name (lit ".") := ⟨by decide +kernel, by decide +kernel⟩
  refine (mustache_document
    (.section false (lit "a") (.piece (.newline .lf) (.piece (.byte 45)
      (.piece (.escaped (lit ".")) (.piece (.newline .lf) .nil)))) .nil) 0 _ ?_).trans ?_
  · refine ⟨hname, ⟨fun h => (by cases h), ⟨by decide, by decide, by decide⟩,
      ⟨hdot, by decide +kernel⟩, fun h => (by cases h), trivial⟩, trivial⟩
  · decide +kernel

end MustacheDocument
