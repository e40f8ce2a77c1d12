import BookFilerHttp.MustacheDocumentProofs
import BookFilerHttp.TemplateProofs

/-! # Templates with the whole engine

    The two models of the template library meet here.  `agrees` says that the flat one,
    which knows text and variables only, is right wherever it has an answer.  With the
    whole engine in the place it leaves open, every `parse` of a `TemplateImpl` is a
    rendering by the whole engine.  What `TemplateProofs` says for anything in that place
    it says for the whole engine, too.

    A context of `addContext` maps keys to themselves, so a partial is shorter than the
    template that names it, or it is the text that the constructor set, which names no
    partial: `parse_returns` concludes that every `parse` comes to an end, in every run,
    whatever the template. -/

namespace TemplateEngine

open ByteString Mustache MustacheTree MustacheRender MustacheDocument

/-! ## Flat data -/

/-- The object of a flat context. -/
def ofStrings (data : Mustache.Data) : MustacheRender.Data :=
  .object (data.entries.map fun e => (e.1, .string e.2))

/-- The string of a value. -/
def stringOf : MustacheRender.Data → Option Bytes
  | .string s => some s
  | _ => none

/-- A name is looked up in strings alike on both sides. -/
theorem get_ofStrings (data : Mustache.Data) (name : Bytes) :
    (ofStrings data).get name = (OrdMap.find name data).map .string := by
  rw [ofStrings, MustacheRender.Data.get, OrdMap.find]
  induction data.entries with
  | nil => rfl
  | cons e rest ih =>
      obtain ⟨k, v⟩ := e
      rw [List.map_cons, List.lookup_cons, OrdMap.findL_cons, ih]
      by_cases hk : name = k
      · rw [if_pos hk, beq_iff_eq.mpr hk]
        rfl
      · rw [if_neg hk, beq_eq_false_iff_ne.mpr hk]

/-- A flat context has the strings that the flat engine finds. -/
theorem get_flat (data : Mustache.Data) (name : Bytes) :
    (Context.get [ofStrings data] name).bind stringOf = contextGet data name := by
  have hfound : ∀ n, ((ofStrings data).get n).bind stringOf = OrdMap.find n data := by
    intro n
    rw [get_ofStrings]
    cases OrdMap.find n data <;> rfl
  rw [Context.get, contextGet]
  by_cases hdot : name = [46]
  · rw [if_pos hdot, if_pos hdot]
    rfl
  · rw [if_neg hdot, if_neg hdot]
    by_cases hplain : 46 ∉ name
    · rw [if_pos hplain, if_pos hplain, List.findSome?_singleton, hfound]
    · rw [if_neg hplain, if_neg hplain, List.findSome?_singleton, Data.getPath]
      cases splitDots [] name with
      | nil => rfl
      | cons n names =>
          cases names with
          | nil =>
              rw [List.foldlM_cons]
              show (((ofStrings data).get n).bind some).bind stringOf = _
              refine Eq.trans ?_ (hfound n)
              cases (ofStrings data).get n <;> rfl
          | cons n' names =>
              rw [List.foldlM_cons, get_ofStrings]
              cases OrdMap.find n data <;> rfl

/-- A variable over a flat context. -/
theorem variableText_flat (data : Mustache.Data) (name : Bytes) :
    variableText true (Context.get [ofStrings data] name) = substitute (contextGet data name)
      ∧ variableText false (Context.get [ofStrings data] name)
        = (contextGet data name).getD [] := by
  rw [← get_flat]
  cases Context.get [ofStrings data] name with
  | none => exact ⟨rfl, rfl⟩
  | some v => cases v <;> exact ⟨rfl, rfl⟩

/-! ## One scanner or the other -/

/-- The component of the flat engine, for a token that has one. -/
def flat : MustacheTree.Token → Option Component
  | .leaf (.text t _) => some (.text t)
  | .leaf (.tag p) =>
      match p.tag.kind with
      | .variable => some (.tag .variable p.tag.name)
      | .unescapedVariable => some (.tag .unescapedVariable p.tag.name)
      | .comment => some (.tag .comment p.tag.name)
      | _ => none
  | _ => none

/-- The contents of a tag say the same in both models. -/
theorem parseTagContents_flat {isUnescapedVar : Bool} {contents : Bytes} {comp : Component}
    (h : Mustache.parseTagContents isUnescapedVar contents = some comp) :
    contents.head? ≠ some 61
      ∧ ∀ p, flat (tagToken ⟨MustacheTree.parseTagContents isUnescapedVar contents, p⟩)
          = some comp := by
  rw [Mustache.parseTagContents.eq_def] at h
  rw [MustacheTree.parseTagContents.eq_def]
  cases contents with
  | nil =>
      refine ⟨fun h => (by cases h), fun p => ?_⟩
      cases isUnescapedVar <;> exact h
  | cons c name =>
      dsimp only at h
      split_ifs at h with hset hunescaped hampersand hcomment hsigil
      · refine ⟨fun h' => hset (Option.some.inj h'), fun p => ?_⟩
        rw [if_pos hunescaped]
        exact h
      · refine ⟨fun h' => hset (Option.some.inj h'), fun p => ?_⟩
        rw [if_neg hunescaped, hampersand]
        exact h
      · refine ⟨fun h' => hset (Option.some.inj h'), fun p => ?_⟩
        rw [if_neg hunescaped, hcomment]
        exact h
      · have hne : ∀ x ∈ lit "#^/>", c ≠ x := fun x hx heq => hsigil (heq ▸ hx)
        refine ⟨fun h' => hset (Option.some.inj h'), fun p => ?_⟩
        rw [if_neg hunescaped]
        dsimp only
        rw [if_neg (hne 35 (by decide +kernel)), if_neg (hne 94 (by decide +kernel)),
          if_neg (hne 47 (by decide +kernel)), if_neg (hne 62 (by decide +kernel)),
          if_neg hampersand, if_neg hcomment]
        exact h

/-- Both look for the same end of a tag. -/
theorem readTag_split (input : Bytes) :
    Mustache.readTag input
      = (if ({} : DelimiterSet).isDefault && input.head? == some 123 then
            splitAt (lit "\x7d\x7d\x7d") (input.drop 1)
          else splitAt ({} : DelimiterSet).end_ input).map
            fun r => (({} : DelimiterSet).isDefault && input.head? == some 123, r) := by
  have hthree : lit "\x7d\x7d\x7d" = [125, 125, 125] := by decide +kernel
  have hend : ({} : DelimiterSet).end_ = [125, 125] := default_end
  rw [default_isDefault, Bool.true_and, hthree, hend, Mustache.readTag.eq_def]
  cases input with
  | nil => rfl
  | cons c rest =>
      by_cases hc : c = 123
      · rw [hc]
        rfl
      · have hhead : ((c :: rest).head? == some 123) = false :=
          beq_eq_false_iff_ne.mpr fun h => hc (Option.some.inj h)
        rw [hhead]
        split
        · next heq => exact absurd (List.cons.inj heq).1 hc
        · rfl

/-- Where the flat parser finds no end of a tag the engine reports it. -/
theorem readTag_none {input : Bytes} (position : Nat) (h : Mustache.readTag input = none) :
    MustacheTree.readTag {} position input = .error (.unclosedTag position) := by
  rw [readTag_split, Option.map_eq_none_iff] at h
  rw [MustacheTree.readTag]
  dsimp only
  rw [h]

/-- Where the flat parser reads a tag the engine reads the same one. -/
theorem readTag_some {input contents after : Bytes} {isUnescapedVar : Bool}
    (h : Mustache.readTag input = some (isUnescapedVar, contents, after))
    (hset : (trim contents).head? ≠ some 61) :
    (∀ position, MustacheTree.readTag {} position input
        = .ok (MustacheTree.parseTagContents isUnescapedVar (trim contents), {}, after))
      ∧ ∃ read, input = read ++ after := by
  rw [readTag_split] at h
  obtain ⟨⟨raw, rest⟩, hsplit, hpair⟩ := Option.map_eq_some_iff.mp h
  obtain ⟨rfl, hrest⟩ := Prod.mk.inj hpair
  obtain ⟨rfl, rfl⟩ := Prod.mk.inj hrest
  constructor
  · intro position
    rw [MustacheTree.readTag]
    dsimp only
    rw [hsplit]
    dsimp only
    rw [if_neg hset]
  · split at hsplit
    · have hcut := splitAt_eq hsplit
      cases input with
      | nil => cases hsplit
      | cons c input =>
          rw [List.drop_succ_cons, List.drop_zero] at hcut
          exact ⟨c :: (raw ++ lit "\x7d\x7d\x7d"), congrArg (c :: ·) hcut⟩
    · exact ⟨_, splitAt_eq hsplit⟩

theorem flush_flat (t : CurrentText) :
    t.flush.tokens.map flat = (flushText t.text).map some := by
  rw [CurrentText.flush, flushText]
  split <;> rfl

/-- The results of the scanners on an input: what the flat one makes of it, the other one
    makes of it too. -/
structure Agree (p : Parsed) (x : Except ParseError (List MustacheTree.Token)) : Prop where
  components : ∀ comps, p = .components comps → ∃ ts, x = .ok ts ∧ ts.map flat = comps.map some
  invalid : p = .invalid → ∃ e, x = .error e

/-- Two scans that agree still do with the same tokens in front. -/
theorem agree_prepend {p : Parsed} {x : Except ParseError (List MustacheTree.Token)}
    {comps : List Component} {ts : List MustacheTree.Token} (h : Agree p x)
    (hts : ts.map flat = comps.map some) : Agree (p.prepend comps) (x.map (ts ++ ·)) := by
  cases p with
  | components rest =>
      obtain ⟨ts', rfl, hts'⟩ := h.components rest rfl
      refine ⟨fun all hall => ⟨_, rfl, ?_⟩, fun h => by cases h⟩
      rw [← Parsed.components.inj hall, List.map_append, List.map_append, hts, hts']
  | invalid =>
      obtain ⟨e, rfl⟩ := h.invalid rfl
      exact ⟨fun all hall => (by cases hall), fun _ => ⟨e, rfl⟩⟩
  | structured => exact ⟨fun all hall => (by cases hall), fun h => (by cases h)⟩

theorem scanAt_error {d : DelimiterSet} {position : Nat} {c : UInt8} {input : Bytes}
    {e : ParseError} (t : CurrentText) (h : next d position c input = .error e) :
    scanAt d t position (c :: input) = .error e := by
  rw [scanAt, List.length_cons, scanFrom, h]

/-- The tokens before a tag, and the tag. -/
theorem tokens_cons (f : Components) (tok : MustacheTree.Token)
    (x : Except ParseError (List MustacheTree.Token)) :
    Tokens f (x.map (tok :: ·)) = x.map ((f.tokens ++ [tok]) ++ ·) := by
  cases x with
  | error e => rfl
  | ok ts =>
      refine congrArg Except.ok ?_
      show f.tokens ++ tok :: ts = f.tokens ++ [tok] ++ ts
      rw [List.append_assoc, List.singleton_append]

/-- At the end of the input both have the text that is left. -/
theorem agree_end (t : CurrentText) :
    Agree (.components (flushText t.text)) (.ok t.flush.tokens) := by
  refine ⟨fun comps h => ⟨_, rfl, ?_⟩, fun h => by cases h⟩
  rw [← Parsed.components.inj h]
  exact flush_flat t

/-- **ONE SCAN**: from any place on both parsers give the same components, by
    induction on a bound of the length of what is left. -/
theorem scanAt_agree :
    ∀ (n : Nat) (t : CurrentText) (position : Nat) (input : Bytes), input.length ≤ n →
      Agree (parseFrom t.text 0 input) (scanAt {} t position input) := by
  intro n
  induction n with
  | zero =>
      intro t position input hn
      obtain rfl := List.length_eq_zero_iff.mp (Nat.le_zero.mp hn)
      exact agree_end t
  | succ n ih =>
      intro t position input hn
      cases input with
      | nil => exact agree_end t
      | cons c input =>
          rw [List.length_cons] at hn
          rw [parseFrom]
          by_cases hprefix : ([123, 123] : Bytes).isPrefixOf (c :: input) = true
          · rw [if_pos hprefix]
            obtain ⟨rest, hrest⟩ := List.isPrefixOf_iff_prefix.mp hprefix
            obtain ⟨hc, hinput⟩ := List.cons.inj hrest
            replace hinput : input = 123 :: rest := hinput.symm
            subst hc hinput
            rw [List.drop_succ_cons, List.drop_zero]
            cases hread : Mustache.readTag rest with
            | none =>
                have hnext : next {} position 123 (123 :: rest) = .error (.unclosedTag position) := by
                  rw [next_braces, readTag_none position hread]
                  rfl
                exact ⟨fun comps h => (by cases h), fun _ => ⟨_, scanAt_error t hnext⟩⟩
            | some r =>
                obtain ⟨isUnescapedVar, contents, after⟩ := r
                dsimp only
                cases hcomp : Mustache.parseTagContents isUnescapedVar (trim contents) with
                | none => exact ⟨fun comps h => (by cases h), fun h => (by cases h)⟩
                | some comp =>
                    obtain ⟨hset, hflat⟩ := parseTagContents_flat hcomp
                    obtain ⟨hnext, read, rfl⟩ := readTag_some hread hset
                    obtain ⟨p', hscan⟩ := scanAt_tag t default_begin_ne
                      (next_tag (hnext position))
                    have hdrop : (123 :: (read ++ after)).drop
                        ((123 :: (read ++ after)).length - after.length) = after := by
                      rw [← List.cons_append, List.length_append, Nat.add_sub_cancel,
                        List.drop_left]
                    rw [hscan, parseFrom_skip, hdrop, tokens_cons]
                    refine agree_prepend (ih {} p' after ?_) ?_
                    · rw [List.length_cons, List.length_append] at hn
                      omega
                    · rw [List.map_append, List.map_append, flush_flat, List.map_singleton,
                        hflat]
                      rfl
          · rw [if_neg hprefix]
            have hother : ¬ (c = 123 ∧ input.head? = some 123) := by
              rintro ⟨rfl, hhead⟩
              obtain ⟨rest, rfl⟩ := List.head?_eq_some_iff.mp hhead
              exact hprefix (List.isPrefixOf_iff_prefix.mpr ⟨rest, rfl⟩)
            have hnext := @next_other position c input hother
            cases hw : whitespaceAt (c :: input) with
            | none =>
                rw [hw] at hnext
                obtain ⟨p', hscan⟩ := scanAt_char t default_begin_ne hnext
                rw [hscan]
                dsimp only
                rw [← add_text t c position]
                exact ih _ _ _ (by omega)
            | some w =>
                rw [hw] at hnext
                obtain ⟨p', hscan⟩ := scanAt_space t default_begin_ne hnext
                obtain ⟨hform, -⟩ := whitespaceAt_some hw
                have hlength : 0 < w.length := by
                  rcases hform with rfl | ⟨x, rfl⟩ <;> exact Nat.succ_pos _
                have hdrop : input.drop (w.length - 1) = (c :: input).drop w.length := by
                  obtain ⟨k, hk⟩ : ∃ k, w.length = k + 1 := ⟨w.length - 1, by omega⟩
                  rw [hk, List.drop_succ_cons, Nat.add_sub_cancel]
                dsimp only
                rw [hscan, parseFrom_skip, hdrop]
                refine agree_prepend (ih {} p' _ ?_) ?_
                · rw [List.length_drop, List.length_cons]
                  omega
                · rw [Nesting.Forest.tokens_append, List.map_append, flush_flat,
                    List.map_append]
                  rfl

/-! ## One renderer or the other -/

/-- The texts of a log in a row. -/
def logText (log : List Event) : Bytes :=
  log.flatMap fun
    | .text t => t
    | .newline t => t
    | .mark => []

/-- Without section marks no line is left out. -/
theorem layoutFrom_plain (log : List Event) :
    ∀ line : List Event, .mark ∉ line → .mark ∉ log →
      layoutFrom line log = lineText line ++ logText log := by
  have hshow : ∀ (line : List Event) (t : Bytes), .mark ∉ line →
      showLine line t = lineText line ++ t := by
    intro line t h
    rw [showLine, if_neg (fun h' => h h'.1)]
  induction log with
  | nil =>
      intro line hline _
      exact hshow line [] hline
  | cons e log ih =>
      intro line hline hlog
      have hrest : .mark ∉ log := fun h => hlog (List.mem_cons_of_mem _ h)
      cases e with
      | newline t =>
          rw [layoutFrom, hshow line t hline, ih [] List.not_mem_nil hrest, List.append_assoc]
          rfl
      | mark => exact absurd (List.mem_cons_self ..) hlog
      | text t =>
          rw [layoutFrom]
          · have hline' : .mark ∉ line ++ [.text t] := by simpa using hline
            rw [ih _ hline' hrest, lineText_append, List.append_assoc]
            refine congrArg (lineText line ++ ·) ?_
            show (t ++ []) ++ logText log = t ++ logText log
            rw [List.append_nil]
          · exact fun _ h => by cases h

/-- A token that has a counterpart is a leaf, and marks no line. -/
theorem leaf_of_flat (data : Mustache.Data) {tok : MustacheTree.Token} {comp : Component}
    (h : flat tok = some comp) :
    ∃ l, tok = .leaf l ∧ ∀ mp, ∃ log,
      meaningOfLeaf mp [ofStrings data] l = some { log := log } ∧ .mark ∉ log
        ∧ logText log = rendered data comp := by
  cases tok with
  | opening p => cases h
  | closing p => cases h
  | leaf l =>
      refine ⟨l, rfl, fun mp => ?_⟩
      cases l with
      | text t p =>
          obtain rfl := Option.some.inj h
          refine ⟨_, rfl, ?_, ?_⟩
          · split <;> simp
          · split <;> exact List.append_nil t
      | tag p =>
          obtain ⟨hescaped, hraw⟩ := variableText_flat data p.tag.name
          rw [flat] at h
          rw [meaningOfLeaf]
          split at h
          · next hkind =>
              obtain rfl := Option.some.inj h
              rw [hkind]
              refine ⟨_, rfl, by simp, ?_⟩
              rw [hescaped]
              exact List.append_nil _
          · next hkind =>
              obtain rfl := Option.some.inj h
              rw [hkind]
              refine ⟨_, rfl, by simp, ?_⟩
              rw [hraw]
              exact List.append_nil _
          · next hkind =>
              obtain rfl := Option.some.inj h
              rw [hkind]
              exact ⟨[], rfl, List.not_mem_nil, rfl⟩
          · cases h

/-- The tokens of flat components are those of a tree of leaves, which means the
    components in a row. -/
theorem leaves_of_flat (data : Mustache.Data) (comps : List Component) :
    ∀ ts : List MustacheTree.Token, ts.map flat = comps.map some →
      ∃ cs : Components, cs.tokens = ts ∧ cs.firstUnclosed sameSection = none
        ∧ ∀ mp, ∃ log, MustacheRender.meaning mp cs [ofStrings data] = some { log := log }
            ∧ .mark ∉ log ∧ logText log = comps.flatMap (rendered data) := by
  induction comps with
  | nil =>
      intro ts h
      obtain rfl := List.map_eq_nil_iff.mp h
      exact ⟨.nil, rfl, rfl, fun mp => ⟨[], rfl, List.not_mem_nil, rfl⟩⟩
  | cons comp comps ih =>
      intro ts h
      cases ts with
      | nil => cases h
      | cons tok ts =>
          obtain ⟨htok, hts⟩ := List.cons.inj h
          obtain ⟨cs, rfl, hclosed, hmeaning⟩ := ih ts hts
          obtain ⟨l, rfl, hleaf⟩ := leaf_of_flat data htok
          refine ⟨.leaf l cs, rfl, hclosed, fun mp => ?_⟩
          obtain ⟨log, hlog, hmark, htext⟩ := hleaf mp
          obtain ⟨log', hlog', hmark', htext'⟩ := hmeaning mp
          refine ⟨log ++ log', ?_, ?_, ?_⟩
          · rw [MustacheRender.meaning, hlog, hlog']
            rfl
          · exact fun h => (List.mem_append.mp h).elim hmark hmark'
          · rw [List.flatMap_cons, ← htext, ← htext']
            exact List.flatMap_append

/-- **AGREEMENT**: what the flat engine says of a template over flat data is what the whole
    engine says, unless it leaves the template to the whole engine. -/
theorem agrees (structured : Bytes → Mustache.Data → Bytes) (depth : Nat) (input : Bytes)
    (data : Mustache.Data) (h : Mustache.parse input ≠ .structured) :
    MustacheRender.mustache depth input (ofStrings data)
      = some (Mustache.mustache structured input data) := by
  have hagree := scanAt_agree input.length {} 0 input (Nat.le_refl _)
  cases hparse : Mustache.parse input with
  | structured => exact absurd hparse h
  | invalid =>
      obtain ⟨e, he⟩ := hagree.invalid hparse
      rw [MustacheRender.mustache, Mustache.mustache, hparse]
      cases hfull : MustacheTree.parse input with
      | error e' => rfl
      | ok cs =>
          have hscan : scan input = .error e := he
          rw [((parse_iff input cs).mp hfull).1] at hscan
          cases hscan
  | components comps =>
      obtain ⟨ts, hts, hflat⟩ := hagree.components comps hparse
      obtain ⟨cs, rfl, hclosed, hmeaning⟩ := leaves_of_flat data comps ts hflat
      obtain ⟨log, hlog, hmark, htext⟩ := hmeaning (meaningOfPartial depth)
      rw [MustacheRender.mustache, Mustache.mustache, hparse,
        (parse_iff input cs).mpr ⟨hts, hclosed⟩]
      dsimp only
      rw [render_layout, hlog, Mustache.render_eq, ← htext]
      exact congrArg some (layoutFrom_plain log [] List.not_mem_nil hmark)

/-! ## Partials of a template object -/

/-- A context of `addContext`: each key has itself, or the text of the constructor. -/
def Echoing (data : Mustache.Data) : Prop :=
  ∀ key v, OrdMap.find key data = some v → v = key ∨ v = lit "value test"

/-- The object of such a context, or one of its strings. -/
def Known (data : Mustache.Data) (d : MustacheRender.Data) : Prop :=
  d = ofStrings data ∨ ∃ s, d = .string s

/-- The contexts the renderer comes to. -/
def KnownAll (data : Mustache.Data) (ctx : Context) : Prop := ∀ d ∈ ctx, Known data d

/-- A key of the data gives a string of the data. -/
theorem known_get {data : Mustache.Data} {d v : MustacheRender.Data} {name : Bytes}
    (hd : Known data d) (h : d.get name = some v) :
    d = ofStrings data ∧ ∃ s, v = .string s ∧ OrdMap.find name data = some s := by
  rcases hd with rfl | ⟨s, rfl⟩
  · rw [get_ofStrings] at h
    obtain ⟨s, hs, rfl⟩ := Option.map_eq_some_iff.mp h
    exact ⟨rfl, s, rfl, hs⟩
  · cases h

theorem known_getPath {data : Mustache.Data} (names : List Bytes) :
    ∀ {d v : MustacheRender.Data}, Known data d → d.getPath names = some v → Known data v := by
  induction names with
  | nil =>
      intro d v hd h
      rw [← Option.some.inj h]
      exact hd
  | cons n names ih =>
      intro d v hd h
      rw [Data.getPath, List.foldlM_cons] at h
      obtain ⟨d', hd', hrest⟩ := Option.bind_eq_some_iff.mp h
      obtain ⟨-, s, hs, -⟩ := known_get hd hd'
      exact ih (Or.inr ⟨s, hs⟩) hrest

/-- What is found in known data is known. -/
theorem known_context {data : Mustache.Data} {ctx : Context} {name : Bytes}
    {v : MustacheRender.Data} (hctx : KnownAll data ctx) (h : ctx.get name = some v) :
    Known data v := by
  rw [Context.get] at h
  split at h
  · exact hctx v (List.mem_of_head? h)
  · split at h
    · obtain ⟨d, hmem, hget⟩ := List.exists_of_findSome?_eq_some h
      obtain ⟨-, s, hs, -⟩ := known_get (hctx d hmem) hget
      exact Or.inr ⟨s, hs⟩
    · obtain ⟨d, hmem, hget⟩ := List.exists_of_findSome?_eq_some h
      exact known_getPath _ (hctx d hmem) hget

/-- Rendering adds no data of its own. -/
theorem closed_known (data : Mustache.Data) : Closed (KnownAll data) := by
  intro ctx t inner hctx hinner
  have hpush : ∀ v, Known data v → KnownAll data (v :: ctx) := by
    intro v hv d hd
    rcases List.mem_cons.mp hd with rfl | hd
    · exact hv
    · exact hctx d hd
  rw [sectionContexts] at hinner
  split at hinner
  · next items hget =>
      rcases known_context hctx hget with h | ⟨s, h⟩
      · cases h
      · cases h
  · next hget =>
      split at hinner
      · cases hinner
      · rw [List.mem_singleton.mp hinner]
        exact hpush _ (known_context hctx hget)
  · rw [List.mem_singleton.mp hinner]
    exact hctx
  · next hget =>
      split at hinner
      · rw [List.mem_singleton.mp hinner]
        exact hpush _ (known_context hctx hget)
      · cases hinner
  · cases hinner

/-- The text of the constructor names no partials. -/
theorem names_value_test {cs : Components} {name : Bytes}
    (h : MustacheTree.parse (lit "value test") = .ok cs) : ¬ Names cs name := by
  have hlit : lit "value test" = [118, 97, 108, 117, 101, 32, 116, 101, 115, 116] := by
    decide +kernel
  rintro ⟨p, hmem, -, -⟩
  have hscan := ((parse_iff _ _).mp h).1
  have htokens : scan (lit "value test")
      = .ok [.leaf (.text [118, 97, 108, 117, 101] 0), .leaf (.text [32] 5),
          .leaf (.text [116, 101, 115, 116] 6)] := by
    rw [hlit]
    rfl
  rw [htokens] at hscan
  rw [← Except.ok.inj hscan] at hmem
  simp at hmem

/-- In every context the renderer comes to, a partial is shorter than the template that
    names it, or it is the text of the constructor, which names no partial. -/
def PartialsEnd (data : Mustache.Data) : Prop :=
  ∀ template cs name ctx text, MustacheTree.parse template = .ok cs → Names cs name →
    KnownAll data ctx → ctx.getPartial name = some text →
    text.length < template.length
      ∨ text = lit "value test"
        ∧ ∀ cs' name', MustacheTree.parse text = .ok cs' → ¬ Names cs' name'

theorem partialsEnd_echo {data : Mustache.Data} (hdata : Echoing data) : PartialsEnd data := by
  intro template cs name ctx text hparse hname hctx hpartial
  have hfind : OrdMap.find name data = some text := by
    rw [Context.getPartial] at hpartial
    split at hpartial
    · next s' hget =>
        obtain ⟨d, hmem, hget⟩ := List.exists_of_findSome?_eq_some hget
        obtain ⟨-, s₁, hs₁, -⟩ := known_get (hctx d hmem) hget
        cases hs₁
    · next s' hget =>
        obtain ⟨d, hmem, hget⟩ := List.exists_of_findSome?_eq_some hget
        obtain ⟨-, s₁, hs₁, hfind⟩ := known_get (hctx d hmem) hget
        obtain rfl := MustacheRender.Data.string.inj hs₁
        rw [← Option.some.inj hpartial]
        exact hfind
    · cases hpartial
  rcases hdata name text hfind with rfl | rfl
  · -- the name stands in the template, between its braces
    obtain ⟨p, hmem, -, rfl⟩ := hname
    exact Or.inl (parse_names hparse hmem)
  · exact Or.inr ⟨rfl, fun cs' name' hparse' => names_value_test hparse'⟩

/-- A bound on the nesting of the partials of a text. -/
def rank (s : Bytes) : Nat := if s = lit "value test" then 0 else s.length + 1

/-- **PARTIALS SHRINK**: where partials end so, the rank goes down from a template to its
    partials. -/
theorem shrinking_partialsEnd {data : Mustache.Data} (hdata : PartialsEnd data) :
    Shrinking (KnownAll data) rank := by
  intro s cs name ctx text hparse hname hctx hpartial
  have hs : s ≠ lit "value test" := by
    rintro rfl
    exact names_value_test hparse hname
  rw [rank, rank, if_neg hs]
  rcases hdata s cs name ctx text hparse hname hctx hpartial with hlt | ⟨rfl, -⟩
  · split <;> omega
  · rw [if_pos rfl]
    exact Nat.succ_pos _

/-! ## Every parse of a template object -/

/-- The whole engine, for the templates that the flat one leaves open; the bound on the
    partials is enough for a template object. -/
def engine (input : Bytes) (data : Mustache.Data) : Bytes :=
  (MustacheRender.mustache (input.length + 2) input (ofStrings data)).getD []

/-- Over an echoing context every template is rendered, and the text is that of the whole
    engine with any larger bound. -/
theorem engine_total {data : Mustache.Data} (hdata : Echoing data) (input : Bytes)
    (more : Nat) :
    MustacheRender.mustache (input.length + 2 + more) input (ofStrings data)
      = some (Mustache.mustache engine input data) := by
  have hroot : KnownAll data [ofStrings data] :=
    fun d hd => Or.inl (List.mem_singleton.mp hd)
  have hrank : rank input ≤ input.length + 2 := by
    rw [rank]
    split <;> omega
  obtain ⟨hsome, hmore⟩ :=
    mustache_total (closed_known data) (shrinking_partialsEnd (partialsEnd_echo hdata)) hroot hrank
  by_cases hflat : Mustache.parse input = .structured
  · obtain ⟨out, hout⟩ := Option.isSome_iff_exists.mp hsome
    rw [hmore, Mustache.mustache, hflat]
    dsimp only
    rw [engine, hout]
    rfl
  · rw [hmore]
    exact agrees engine _ input data hflat

/-- The data of a template object is of this kind in every state. -/
theorem kept_echoing {s : HttpTemplate.TemplateImpl × HttpTemplate.Page}
    (h : HttpTemplate.Kept s) : Echoing s.1.data := by
  intro key v hv
  rw [h.context, HttpTemplate.stored] at hv
  split at hv
  · exact Or.inl (Option.some.inj hv).symm
  · split at hv
    · exact Or.inr (Option.some.inj hv).symm
    · cases hv

open HttpTemplate in
/-- **EVERY PARSE RETURNS**: in every state that a run of a template object reaches, a
    `parse` comes to an end, with the text that the whole engine makes of the template,
    however deep it may follow partials; for the text of a document that is what the
    document means over the context.  A partial there is shorter than the template that
    names it, or the text of the constructor. -/
theorem parse_returns {calls : List Call} {s : TemplateImpl × Page} {t : List Empty}
    (h : Runs.run (step engine) new calls = some (s, t)) :
    (∀ more, MustacheRender.mustache (s.1.templateStr.length + 2 + more) s.1.templateStr
          (ofStrings s.1.data) = some (exec engine s .parse).1.toString)
      ∧ (∀ doc : Document, doc.Plain [] → s.2.loaded = doc.show →
          some (exec engine s .parse).1.toString
            = (doc.meaning (meaningOfPartial (doc.show.length + 2)) [ofStrings s.1.data]).map
                fun m => layout m.log)
      ∧ PartialsEnd s.1.data := by
  have hkept := run_kept calls h
  have htotal := engine_total (kept_echoing hkept) s.1.templateStr
  refine ⟨htotal, fun doc hdoc hloaded => ?_, partialsEnd_echo (kept_echoing hkept)⟩
  have htemplate : s.1.templateStr = doc.show := hkept.template.trans hloaded
  have hbound := htotal 0
  rw [htemplate] at hbound
  rw [← mustache_document doc _ _ hdoc]
  refine Eq.trans ?_ hbound.symm
  show some (Mustache.mustache engine s.1.templateStr s.1.data) = _
  rw [htemplate]

open HttpTemplate in
/-- A partial of a key that was added is rendered as that key. -/
theorem parse_returns_partial :
    (exec engine (exec engine (exec engine new (.addContext (lit "name") (lit "Bob")))
        (.readFile (lit "\x7b\x7b>name\x7d\x7d\x7b\x7b#name\x7d\x7d!\x7b\x7b/name\x7d\x7d")))
        .parse).1.toString = lit "name!" := by
  have h := (@parse_returns [.addContext (lit "name") (lit "Bob"),
    .readFile (lit "\x7b\x7b>name\x7d\x7d\x7b\x7b#name\x7d\x7d!\x7b\x7b/name\x7d\x7d")]
    _ _ rfl).1 0
  exact Option.some.inj (h.symm.trans (by decide +kernel))

end TemplateEngine
