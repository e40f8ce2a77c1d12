import BookFilerHttp.MustacheProofs
import BookFilerHttp.RunsProofs

/-! # Templates and their context

    `TemplateImpl`: a text read from a file, a flat context that starts with an
    entry of the constructor, and the text of the last rendering.  A call of
    `addContext` stores the KEY as the value.

    `Page` is what such an object is for: it remembers the value last added for
    each key.  `renders_when_echoed` runs the two side by side over every sequence
    of calls and says for which contexts they agree. -/

namespace HttpTemplate

open ByteString Mustache

/-! ## The code -/

/-- `TemplateImpl`. -/
structure TemplateImpl where
  data : Data
  templateStr : Bytes
  parsedStr : Bytes

/-- The constructor. -/
def TemplateImpl.new : TemplateImpl :=
  { data := set (lit "test") (lit "value test") OrdMap.empty
    templateStr := []
    parsedStr := [] }

/-- The calls; `readFile` has the content that the file has at the call. -/
inductive Call where
  | readFile (content : Bytes)
  | addContext (key value : Bytes)
  | parse

/-- `readFile`. -/
def TemplateImpl.readFile (t : TemplateImpl) (content : Bytes) : TemplateImpl :=
  { t with templateStr := content }

/-- `addContext`: `data.set(key, key)`. -/
def TemplateImpl.addContext (t : TemplateImpl) (key _value : Bytes) : TemplateImpl :=
  { t with data := set key key t.data }

/-- `parse`. -/
def TemplateImpl.parse (structured : Bytes → Data → Bytes) (t : TemplateImpl) :
    TemplateImpl :=
  { t with parsedStr := mustache structured t.templateStr t.data }

/-- `toString`. -/
def TemplateImpl.toString (t : TemplateImpl) : Bytes := t.parsedStr

/-- One call. -/
def TemplateImpl.exec (structured : Bytes → Data → Bytes) (t : TemplateImpl) :
    Call → TemplateImpl
  | .readFile content => t.readFile content
  | .addContext key value => t.addContext key value
  | .parse => t.parse structured

/-! ## Its purpose -/

/-- The value last added for each key, the template last loaded, and what the last
    `parse` had of both. -/
structure Page where
  added : Bytes → Option Bytes
  loaded : Bytes
  parsed : Option (Bytes × (Bytes → Option Bytes))

/-- Nothing added, nothing loaded. -/
def Page.new : Page := { added := fun _ => none, loaded := [], parsed := none }

/-- One call, as its caller means it. -/
def Page.exec (p : Page) : Call → Page
  | .readFile content => { p with loaded := content }
  | .addContext key value => { p with added := Function.update p.added key (some value) }
  | .parse => { p with parsed := some (p.loaded, p.added) }

/-- After a `parse` the text is the template with each tag replaced by the escaped
    value last added for it, or by nothing. -/
def Renders (s : TemplateImpl × Page) : Prop :=
  ∀ source added, s.2.parsed = some (source, added) →
    ∀ ps, PlainTemplate ps → source = showAll ps → s.1.toString = expand added ps

/-- A call on both. -/
def exec (structured : Bytes → Data → Bytes) (s : TemplateImpl × Page) (c : Call) :
    TemplateImpl × Page :=
  (s.1.exec structured c, s.2.exec c)

/-- The same as a step: no call is refused. -/
def step (structured : Bytes → Data → Bytes) (s : TemplateImpl × Page) (c : Call) :
    Option ((TemplateImpl × Page) × List Empty) :=
  some (exec structured s c, [])

/-- A new object. -/
def new : TemplateImpl × Page := (TemplateImpl.new, Page.new)

/-- The value of a key is the key itself, and the key of the constructor has been
    added. -/
structure Echoed (added : Bytes → Option Bytes) (key : Bytes) : Prop where
  value : ∀ v, added key = some v → v = key
  absent : added key = none → key ≠ lit "test"

/-- The condition: a `parse` finds a template whose keys are all echoed. -/
def EchoedTags (s : TemplateImpl × Page) (c : Call) : Prop :=
  c = .parse → ∀ ps, PlainTemplate ps → s.2.loaded = showAll ps →
    ∀ key ∈ keys ps, Echoed s.2.added key

/-! ## What the context holds -/

/-- What is stored for a key after these additions. -/
def stored (added : Bytes → Option Bytes) (key : Bytes) : Option Bytes :=
  match added key with
  | some _ => some key
  | none => if key = lit "test" then some (lit "value test") else none

/-- The template and the context are those of the page, as far as `addContext` goes. -/
structure Kept (s : TemplateImpl × Page) : Prop where
  template : s.1.templateStr = s.2.loaded
  context : ∀ key, OrdMap.find key s.1.data = stored s.2.added key

theorem find_set (name key var : Bytes) (data : Data) :
    OrdMap.find key (set name var data)
      = if key = name then some var else OrdMap.find key data := by
  show OrdMap.find key (OrdMap.alter name (fun _ => var) data) = _
  rw [OrdMap.find_alter]
  by_cases h : key = name
  · rw [if_pos h, if_pos h]
  · rw [if_neg h, if_neg h]

theorem new_kept : Kept new := by
  refine ⟨rfl, ?_⟩
  intro key
  show OrdMap.find key (set (lit "test") (lit "value test") OrdMap.empty) = _
  rw [find_set]
  rfl

theorem exec_kept (structured : Bytes → Data → Bytes) {s : TemplateImpl × Page} (c : Call)
    (h : Kept s) : Kept (exec structured s c) := by
  cases c with
  | readFile content => exact ⟨rfl, h.context⟩
  | parse => exact ⟨h.template, h.context⟩
  | addContext key value =>
      refine ⟨h.template, ?_⟩
      intro k
      show OrdMap.find k (set key key s.1.data)
        = stored (Function.update s.2.added key (some value)) k
      rw [find_set, h.context, stored, stored]
      by_cases hk : k = key
      · rw [if_pos hk, hk, Function.update_self]
      · rw [if_neg hk, Function.update_of_ne hk]

/-- What is put in for a tag is right exactly if its key is echoed. -/
theorem substitute_stored (added : Bytes → Option Bytes) (key : Bytes) :
    substitute (stored added key) = substitute (added key) ↔ Echoed added key := by
  rw [stored]
  cases hkey : added key with
  | some v =>
      constructor
      · intro h
        have hv : key = v := htmlEscape_injective h
        refine ⟨?_, ?_⟩
        · intro v' hv'
          rw [← Option.some.inj (hkey.symm.trans hv')]
          exact hv.symm
        · intro hnone
          cases hkey.symm.trans hnone
      · intro h
        rw [h.value v hkey]
  | none =>
      by_cases htest : key = lit "test"
      · refine iff_of_false ?_ (fun h => h.absent hkey htest)
        rw [htest]
        decide
      · dsimp only
        rw [if_neg htest]
        refine iff_of_true rfl ⟨?_, fun _ => htest⟩
        intro v hv
        cases hkey.symm.trans hv

/-- Values that agree on the tags of a template give the same text. -/
theorem expand_congr {f g : Bytes → Option Bytes} {ps : List Piece}
    (h : ∀ key ∈ keys ps, substitute (f key) = substitute (g key)) :
    expand f ps = expand g ps := by
  induction ps with
  | nil => rfl
  | cons p rest ih =>
      cases p with
      | byte c => exact congrArg (c :: ·) (ih h)
      | tag key =>
          have hkey := h key (List.mem_cons_self ..)
          have hrest := ih (fun k hk => h k (List.mem_cons_of_mem _ hk))
          show substitute (f key) ++ expand f rest = substitute (g key) ++ expand g rest
          rw [hkey, hrest]

/-- A template with a single tag has a text before it and one after it. -/
theorem expand_single {key : Bytes} {ps : List Piece} (h : keys ps = [key]) :
    ∃ a b, ∀ value, expand value ps = a ++ substitute (value key) ++ b := by
  induction ps with
  | nil => cases h
  | cons p rest ih =>
      cases p with
      | byte c =>
          obtain ⟨a, b, hab⟩ := ih h
          refine ⟨c :: a, b, ?_⟩
          intro value
          exact congrArg (c :: ·) (hab value)
      | tag key' =>
          obtain ⟨rfl, hnone⟩ := List.cons.inj h
          refine ⟨[], expand (fun _ => none) rest, ?_⟩
          intro value
          have hrest : expand value rest = expand (fun _ => none) rest := by
            refine expand_congr ?_
            intro k hk
            rw [show keys rest = [] from hnone] at hk
            cases hk
          show substitute (value key') ++ expand value rest = _
          rw [hrest]
          rfl

/-- The text a `parse` makes of a template of text and variables. -/
theorem parse_toString (structured : Bytes → Data → Bytes) {s : TemplateImpl × Page}
    {ps : List Piece} (hk : Kept s) (hps : PlainTemplate ps) (hl : s.2.loaded = showAll ps) :
    (exec structured s .parse).1.toString = expand (stored s.2.added) ps := by
  have hfind : (fun key => OrdMap.find key s.1.data) = stored s.2.added :=
    funext hk.context
  show mustache structured s.1.templateStr s.1.data = _
  rw [hk.template, hl, mustache_show structured s.1.data hps, hfind]

/-- The step lemma: the text stays right, and a `parse` that finds echoed keys makes
    it right. -/
theorem exec_renders (structured : Bytes → Data → Bytes) {s : TemplateImpl × Page}
    {c : Call} (hk : Kept s) (hr : Renders s) (hc : EchoedTags s c) :
    Renders (exec structured s c) := by
  cases c with
  | readFile content => exact hr
  | addContext key value => exact hr
  | parse =>
      intro source added hparsed ps hps hsource
      obtain ⟨rfl, rfl⟩ := Prod.mk.inj (Option.some.inj hparsed)
      rw [parse_toString structured hk hps hsource]
      refine expand_congr ?_
      intro key hkey
      exact (substitute_stored s.2.added key).mpr (hc rfl ps hps hsource key hkey)

/-! ## Every run -/

theorem run_kept {structured : Bytes → Data → Bytes} (calls : List Call)
    {s : TemplateImpl × Page} {t : List Empty}
    (h : Runs.run (step structured) new calls = some (s, t)) : Kept s := by
  refine Runs.run_invariant ?_ calls new_kept h
  intro s c s' as hs hstep
  rw [← (Prod.mk.inj (Option.some.inj hstep)).1]
  exact exec_kept structured c hs

/-- **ECHOED CONTEXT**: in every run in which each `parse` finds only tags whose key
    was last added with itself as the value, or was not added and is not that of the
    constructor, the text is right in every state; and a `parse` of a template with
    a single tag is right only then. -/
theorem renders_when_echoed (structured : Bytes → Data → Bytes) :
    (∀ calls, Runs.Along (step structured) EchoedTags new calls →
        Runs.Always (step structured) Renders new calls)
      ∧ ∀ calls s t, Runs.run (step structured) new calls = some (s, t) →
          ∀ ps key, PlainTemplate ps → s.2.loaded = showAll ps → keys ps = [key] →
            (Renders (exec structured s .parse) ↔ Echoed s.2.added key) := by
  constructor
  · intro calls hcalls
    have hstart : Kept new ∧ Renders new :=
      ⟨new_kept, fun _ _ h => by cases h⟩
    have hstep : ∀ s c s' as, Kept s ∧ Renders s → EchoedTags s c →
        step structured s c = some (s', as) → Kept s' ∧ Renders s' := by
      rintro s c s' as ⟨hk, hr⟩ hc h
      rw [← (Prod.mk.inj (Option.some.inj h)).1]
      exact ⟨exec_kept structured c hk, exec_renders structured hk hr hc⟩
    exact Runs.always_mono (fun _ hs => hs.2) calls
      (Runs.always_of_along hstep calls hstart hcalls)
  · intro calls s t hrun ps key hps hl hkeys
    have hk := run_kept calls hrun
    obtain ⟨a, b, hab⟩ := expand_single hkeys
    constructor
    · intro hr
      have htext := hr s.2.loaded s.2.added rfl ps hps hl
      rw [parse_toString structured hk hps hl, hab, hab] at htext
      refine (substitute_stored s.2.added key).mp ?_
      exact List.append_cancel_left (List.append_cancel_right htext)
    · intro hkey source added hparsed qs hqs hsource
      obtain ⟨rfl, rfl⟩ := Prod.mk.inj (Option.some.inj hparsed)
      obtain rfl := showAll_injective hps hqs (hl.symm.trans hsource)
      rw [parse_toString structured hk hps hl, hab, hab,
        (substitute_stored s.2.added key).mpr hkey]

/-- A value other than its key is not shown. -/
theorem bob_not_shown :
    ¬ Runs.Always (step (fun _ _ => [])) Renders new
      [.addContext (lit "name") (lit "Bob"), .readFile (showAll [.tag (lit "name")]),
        .parse] := by
  intro h
  have hr : Renders _ := ((h.2 _ [] rfl).2 _ [] rfl).2 _ [] rfl
  have hkey : PlainKey (lit "name") :=
    { noDot := by decide +kernel
      noSpace := by decide +kernel
      noBrace := by decide +kernel
      noSigil := by decide +kernel }
  have htext := hr _ _ rfl [.tag (lit "name")] ⟨hkey, trivial⟩ rfl
  revert htext
  decide +kernel

end HttpTemplate
