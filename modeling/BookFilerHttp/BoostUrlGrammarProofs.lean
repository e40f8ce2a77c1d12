import BookFilerHttp.BoostUrlBaseProofs
import BookFilerHttp.BoostUrlAddressProofs

/-! # The grammar of the vendored URL library

    What `parse_url` accepts, as a grammar of its parts.  Each part is described by
    the texts it can hold; what a part must not run into is described by the parts
    around it.

    `parseUrl_iff` is the ROUND TRIP in both directions: the parser returns certain
    parts for a string exactly when the parts are well formed and the string is
    their concatenation.  So parsing loses nothing, every well-formed URL is
    accepted, and its parts are the only ones the string can be cut into. -/

namespace BoostUrl

open ByteString

/-! ## Texts of a set -/

namespace PctEncoding

/-- Plain characters of the set and complete escapes. -/
inductive Text (e : PctEncoding) : Bytes → Prop where
  | nil : Text e []
  | plain {c : UInt8} {s : Bytes} (hpct : c ≠ '%'.toUInt8) (hc : e.isSpecial c = false)
      (h : Text e s) : Text e (c :: s)
  | escape {a b : UInt8} {s : Bytes} (ha : hexDigit a ≠ none) (hb : hexDigit b ≠ none)
      (h : Text e s) : Text e ('%'.toUInt8 :: a :: b :: s)

/-- The string does not go on with a text of the set. -/
def Stops (e : PctEncoding) (r : Bytes) : Prop :=
  ∀ c ∈ r.head?, c ≠ '%'.toUInt8 ∧ e.isSpecial c = true

variable {e : PctEncoding} {s r w : Bytes}

theorem stops_nil : Stops e [] := fun _ h => by cases h

theorem stops_cons {c : UInt8} {p : Bytes} (hpct : c ≠ '%'.toUInt8)
    (hc : e.isSpecial c = true) : Stops e (c :: p) := by
  rintro d ⟨⟩
  exact ⟨hpct, hc⟩

/-- **MAXIMAL MUNCH**: the parser takes the longest text of its set. -/
theorem parse_iff : e.parse s = .ok r ↔ ∃ w, s = w ++ r ∧ Text e w ∧ Stops e r := by
  constructor
  · intro h
    fun_induction PctEncoding.parse e s with
    | case1 =>
        cases h
        exact ⟨[], rfl, .nil, stops_nil⟩
    | case2 a b rest hbad => cases h
    | case3 a b rest hgood ih =>
        obtain ⟨w, rfl, hw, hr⟩ := ih h
        obtain ⟨ha, hb⟩ := not_or.mp hgood
        exact ⟨'%'.toUInt8 :: a :: b :: w, rfl, .escape ha hb hw, hr⟩
    | case4 => cases h
    | case5 c p hpct hc =>
        cases h
        exact ⟨[], rfl, .nil, stops_cons hpct hc⟩
    | case6 c p hpct hc ih =>
        obtain ⟨w, rfl, hw, hr⟩ := ih h
        exact ⟨c :: w, rfl, .plain hpct (Bool.not_eq_true _ ▸ hc) hw, hr⟩
  · rintro ⟨w, rfl, hw, hr⟩
    induction hw with
    | nil =>
        cases r with
        | nil => rfl
        | cons c p =>
            obtain ⟨hpct, hc⟩ := hr c rfl
            rw [List.nil_append, PctEncoding.parse.eq_def]
            simp only [if_neg hpct, hc, if_true]
    | plain hpct hc _ ih =>
        rw [List.cons_append, PctEncoding.parse.eq_def]
        simp only [if_neg hpct, hc, Bool.false_eq_true, if_false]
        exact ih
    | escape ha hb _ ih =>
        rw [List.cons_append, List.cons_append, List.cons_append, PctEncoding.parse.eq_def]
        simp only [if_true, if_neg (not_or.mpr ⟨ha, hb⟩)]
        exact ih

/-- A text without its first character, which starts no escape. -/
theorem Text.tail {c : UInt8} (h : Text e (c :: s)) (hc : c ≠ '%'.toUInt8) : Text e s := by
  cases h with
  | plain _ _ h => exact h
  | escape _ _ _ => exact absurd rfl hc

/-- Plain characters in front of a text. -/
theorem text_plain_append (hw : ∀ c ∈ w, c ≠ '%'.toUInt8 ∧ e.isSpecial c = false) :
    Text e (w ++ s) ↔ Text e s := by
  induction w with
  | nil => exact Iff.rfl
  | cons c w ih =>
      obtain ⟨hc, hw⟩ := List.forall_mem_cons.mp hw
      rw [← ih hw, List.cons_append]
      exact ⟨fun h => h.tail hc.1, .plain hc.1 hc.2⟩

end PctEncoding

open PctEncoding

/-! ## The parts -/

/-- Segments, each behind a slash. -/
inductive Segments : Bytes → Prop where
  | nil : Segments []
  | cons {w s : Bytes} (hw : pcharPctSet.Text w) (h : Segments s) :
      Segments ('/'.toUInt8 :: (w ++ s))

/-- Query fields as the library reads them.  A key runs over ampersands, and a field
    without an equals sign is the last one. -/
inductive QueryText : Bytes → Prop where
  | key {k : Bytes} (hk : qkeyPctSet.Text k) : QueryText k
  | field {k v : Bytes} (hk : qkeyPctSet.Text k) (hv : qvalPctSet.Text v) :
      QueryText (k ++ '='.toUInt8 :: v)
  | more {k v s : Bytes} (hk : qkeyPctSet.Text k) (hv : qvalPctSet.Text v)
      (h : QueryText s) : QueryText (k ++ '='.toUInt8 :: (v ++ '&'.toUInt8 :: s))

/-- A host of each kind; a name is no IPv4 address.  What is read in brackets is more
    than the addresses of the grammar, and less (`hostForm_ipv6`). -/
def HostForm : HostType → Bytes → Prop
  | .none, h => h = []
  | .name, h => h ≠ [] ∧ regNamePctSet.Text h ∧ ¬ IPv4Address h
  | .ipv4, h => IPv4Address h
  | .ipv6, h => parseIpLiteral h = .ok []

/-- An ASCII letter. -/
def Letter (c : UInt8) : Prop :=
  ('A'.toUInt8 ≤ c ∧ c ≤ 'Z'.toUInt8) ∨ ('a'.toUInt8 ≤ c ∧ c ≤ 'z'.toUInt8)

/-- A letter, letters and three other characters, but no digits, and a colon. -/
def SchemeForm (s : Bytes) : Prop :=
  s = [] ∨ ∃ c t, s = c :: t ++ [':'.toUInt8] ∧ Letter c ∧ ∀ d ∈ t, Letter d ∨ d ∈ lit "+-."

/-- User and password: two slashes and nothing, or two slashes, the user, a password
    behind a colon, and the at sign. -/
def UserinfoForm (user password : Bytes) : Prop :=
  (user = lit "//" ∧ password = [])
  ∨ ∃ u p, user = lit "//" ++ u ∧ password = p ++ ['@'.toUInt8]
      ∧ userinfoNcPctSet.Text u ∧ userinfoPctSet.Text p
      ∧ (∀ c ∈ p.head?, c = ':'.toUInt8)

def PortForm (s : Bytes) : Prop :=
  s = [] ∨ ∃ ds, s = ':'.toUInt8 :: ds ∧ ∀ c ∈ ds, isDigit c = true

/-- Behind an authority come segments.  Without one the path is empty; or a slash that
    ends the URL; or a slash, ONE BYTE that is any but a slash, and segments; or it
    starts with a segment of the set `e` that is not empty. -/
def PathText (authority : Prop) (e : PctEncoding) (path tail : Bytes) : Prop :=
  (authority ∧ Segments path)
  ∨ ¬ authority ∧
    (path = []
    ∨ (path = ['/'.toUInt8] ∧ tail = [])
    ∨ (∃ d w s, path = '/'.toUInt8 :: d :: (w ++ s) ∧ d ≠ '/'.toUInt8
        ∧ pcharPctSet.Text w ∧ Segments s)
    ∨ ∃ w s, path = w ++ s ∧ w ≠ [] ∧ e.Text w ∧ Segments s)

def QueryForm (s : Bytes) : Prop :=
  s = [] ∨ (s.head? = some '?'.toUInt8 ∧ QueryText s)

def FragForm (s : Bytes) : Prop :=
  s = [] ∨ ∃ f, s = '#'.toUInt8 :: f ∧ fragPctSet.Text f

namespace Parts

/-- No authority, or one with all its parts. -/
def AuthorityForm (u : Parts) : Prop :=
  (u.user = [] ∧ u.password = [] ∧ u.host = [] ∧ u.port = [] ∧ u.hostType = .none)
  ∨ (UserinfoForm u.user u.password ∧ HostForm u.hostType u.host ∧ PortForm u.port)

/-- The path in front of a query and a fragment, over the set of a first segment
    without a slash. -/
def PathForm (u : Parts) : Prop :=
  PathText (u.user ≠ []) (if u.scheme = [] then pcharNcPctSet else pcharPctSet) u.path
    (u.query ++ u.frag)

/-- **THE GRAMMAR** of a URL cut into its parts. -/
structure WellFormed (u : Parts) : Prop where
  scheme : SchemeForm u.scheme
  authority : u.AuthorityForm
  path : u.PathForm
  query : QueryForm u.query
  frag : FragForm u.frag

end Parts

/-! ## Paths -/

/-- The loop reads segments. -/
theorem segmentLoop_sound {fuel : Nat} {s r : Bytes} (h : segmentLoop fuel s = .ok r) :
    ∃ w, s = w ++ r ∧ Segments w := by
  fun_induction segmentLoop fuel s with
  | case1 s =>
      cases h
      exact ⟨[], rfl, .nil⟩
  | case2 =>
      cases h
      exact ⟨[], rfl, .nil⟩
  | case3 fuel p ec hp => cases h
  | case4 fuel p p' hp ih =>
      obtain ⟨w, rfl, hw, -⟩ := parse_iff.mp hp
      obtain ⟨w', rfl, hw'⟩ := ih h
      exact ⟨'/'.toUInt8 :: (w ++ w'), by simp, .cons hw hw'⟩
  | case5 fuel c p hc =>
      cases h
      exact ⟨[], rfl, .nil⟩

theorem parseSegments_sound {s r : Bytes} (h : parseSegments s = .ok r) :
    ∃ w, s = w ++ r ∧ Segments w := segmentLoop_sound h

/-- A path behind a slash: the slash alone at the end of the input, or a byte that is no slash
    and segments. -/
theorem parsePathAbsolute_sound {s r : Bytes} (h : parsePathAbsolute s = .ok r) :
    (s = ['/'.toUInt8] ∧ r = [])
    ∨ ∃ d w t, s = '/'.toUInt8 :: d :: (w ++ t) ++ r ∧ d ≠ '/'.toUInt8
        ∧ pcharPctSet.Text w ∧ Segments t := by
  rw [parsePathAbsolute.eq_def] at h
  split at h
  · cases h
  · next c p =>
      split at h
      · next hc =>
          subst hc
          split at h
          · cases h
            exact Or.inl ⟨rfl, rfl⟩
          · next d p' =>
              split at h
              · cases h
              · next hd =>
                  split at h
                  · cases h
                  · next rest hrest =>
                      obtain ⟨w, rfl, hw, -⟩ := parse_iff.mp hrest
                      obtain ⟨t, rfl, ht⟩ := parseSegments_sound h
                      exact Or.inr ⟨d, w, t, by simp, hd, hw, ht⟩
      · cases h

/-- A path that starts with a segment of the set `e`. -/
theorem parsePathFrom_sound {e : PctEncoding} {s r : Bytes} (h : parsePathFrom e s = .ok r) :
    ∃ w t, s = w ++ t ++ r ∧ w ≠ [] ∧ e.Text w ∧ Segments t := by
  rw [parsePathFrom.eq_def] at h
  split at h
  · cases h
  · next p hp =>
      split at h
      · cases h
      · next hne =>
          obtain ⟨w, rfl, hw, -⟩ := parse_iff.mp hp
          obtain ⟨t, rfl, ht⟩ := parseSegments_sound h
          refine ⟨w, t, (List.append_assoc ..).symm, ?_, hw, ht⟩
          rintro rfl
          exact hne rfl

/-- What follows a query: nothing, or a fragment. -/
def FragStart (r : Bytes) : Prop := ∀ c ∈ r.head?, c = '#'.toUInt8

/-- A fragment ends a key. -/
theorem FragStart.stops_key {r : Bytes} (h : FragStart r) : qkeyPctSet.Stops r := by
  intro c hc
  rw [h c hc]
  exact ⟨by decide, by decide⟩

theorem FragStart.stops_value {r : Bytes} (h : FragStart r) : qvalPctSet.Stops r := by
  intro c hc
  rw [h c hc]
  exact ⟨by decide, by decide⟩

/-- What the loop takes; it takes nothing only in front of a character that no key
    holds. -/
theorem queryLoop_sound :
    ∀ (fuel : Nat) {s r : Bytes}, queryLoop fuel s = .ok r →
      ∃ w, s = w ++ r ∧ QueryText w ∧ (w = [] → fuel = 0 ∨ qkeyPctSet.Stops r) := by
  intro fuel
  induction fuel with
  | zero =>
      intro s r h
      cases h
      exact ⟨[], rfl, .key .nil, fun _ => Or.inl rfl⟩
  | succ fuel ih =>
      intro s r h
      rw [queryLoop] at h
      split at h
      · cases h
      -- the key runs to the end
      · next hk =>
          cases h
          obtain ⟨k, rfl, hkey, hstop⟩ := parse_iff.mp hk
          exact ⟨k, rfl, .key hkey, fun _ => Or.inr hstop⟩
      · next c p hk =>
          obtain ⟨k, rfl, hkey, hstop⟩ := parse_iff.mp hk
          split at h
          · next hc =>
              subst hc
              split at h
              · cases h
                exact ⟨k ++ ['='.toUInt8], by simp, .field hkey .nil, by simp⟩
              · split at h
                · cases h
                · next hv =>
                    cases h
                    obtain ⟨v, rfl, hval, -⟩ := parse_iff.mp hv
                    exact ⟨k ++ '='.toUInt8 :: v, by simp, .field hkey hval, by simp⟩
                · next d p' hv =>
                    obtain ⟨v, rfl, hval, -⟩ := parse_iff.mp hv
                    split at h
                    · next hd =>
                        subst hd
                        obtain ⟨w, rfl, hw, -⟩ := ih h
                        exact ⟨k ++ '='.toUInt8 :: (v ++ '&'.toUInt8 :: w), by simp,
                          .more hkey hval hw, by simp⟩
                    · cases h
                      exact ⟨k ++ '='.toUInt8 :: v, by simp, .field hkey hval, by simp⟩
          · cases h
            exact ⟨k, rfl, .key hkey, fun _ => Or.inr hstop⟩

/-- A field of the loop. -/
theorem queryLoop_field (fuel : Nat) {k v q : Bytes} (hk : qkeyPctSet.Text k)
    (hv : qvalPctSet.Text v) :
    (FragStart q → queryLoop (fuel + 1) (k ++ '='.toUInt8 :: (v ++ q)) = .ok q)
    ∧ queryLoop (fuel + 1) (k ++ '='.toUInt8 :: (v ++ '&'.toUInt8 :: q))
        = queryLoop fuel q := by
  have hkey : ∀ p, qkeyPctSet.parse (k ++ '='.toUInt8 :: p) = .ok ('='.toUInt8 :: p) :=
    fun p => parse_iff.mpr ⟨k, rfl, hk, stops_cons (by decide) (by decide)⟩
  constructor
  · intro hq
    have hval : qvalPctSet.parse (v ++ q) = .ok q :=
      parse_iff.mpr ⟨v, rfl, hv, hq.stops_value⟩
    rw [queryLoop, hkey]
    simp only [if_true]
    split
    · next hnil => rw [(List.append_eq_nil_iff.mp hnil).2]
    · rw [hval]
      cases q with
      | nil => rfl
      | cons d p =>
          obtain rfl := hq d rfl
          rfl
  · have hval : qvalPctSet.parse (v ++ '&'.toUInt8 :: q) = .ok ('&'.toUInt8 :: q) :=
      parse_iff.mpr ⟨v, rfl, hv, stops_cons (by decide) (by decide)⟩
    rw [queryLoop, hkey]
    simp only [if_true]
    split
    · next hnil => exact absurd hnil (by simp)
    · rw [hval]
      simp only [if_true]

/-- Query fields are read to their end, by induction on them. -/
theorem queryLoop_complete {s r : Bytes} (h : QueryText s) (hr : FragStart r) :
    ∀ fuel, s.length ≤ fuel → queryLoop fuel (s ++ r) = .ok r := by
  induction h with
  | key hk =>
      intro fuel hfuel
      cases fuel with
      | zero =>
          rw [List.length_eq_zero_iff.mp (Nat.le_zero.mp hfuel)]
          rfl
      | succ fuel =>
          rw [queryLoop, parse_iff.mpr ⟨_, rfl, hk, hr.stops_key⟩]
          cases r with
          | nil => rfl
          | cons c p =>
              obtain rfl := hr c rfl
              rfl
  | field hk hv =>
      intro fuel hfuel
      cases fuel with
      | zero => simp at hfuel
      | succ fuel =>
          rw [List.append_assoc, List.cons_append]
          exact (queryLoop_field fuel hk hv).1 hr
  | more hk hv h ih =>
      intro fuel hfuel
      cases fuel with
      | zero => simp at hfuel
      | succ fuel =>
          simp only [List.length_append, List.length_cons] at hfuel
          rw [List.append_assoc, List.cons_append, List.append_assoc, List.cons_append,
            (queryLoop_field fuel hk hv).2]
          exact ih fuel (by omega)

theorem parseQuery_sound {s r : Bytes} (h : parseQuery s = .ok r) :
    ∃ q, s = q ++ r ∧ QueryForm q := by
  cases s with
  | nil =>
      cases h
      exact ⟨[], rfl, Or.inl rfl⟩
  | cons c p =>
      rw [parseQuery] at h
      split at h
      · next hc =>
          subst hc
          obtain ⟨q, hq, htext, hnil⟩ := queryLoop_sound _ h
          cases q with
          | nil =>
              -- the key takes the question mark
              rcases hnil rfl with hfuel | hstop
              · cases hfuel
              · have hspecial : qkeyPctSet.isSpecial '?'.toUInt8 = true :=
                  (hstop _ (by rw [← List.nil_append r, ← hq]; rfl)).2
                exact absurd hspecial (by decide)
          | cons d q =>
              have hd := (List.cons.inj hq).1
              exact ⟨d :: q, hq, Or.inr ⟨by rw [← hd]; rfl, htext⟩⟩
      · cases h
        exact ⟨[], rfl, Or.inl rfl⟩

/-- A query is read up to the fragment. -/
theorem parseQuery_complete {q r : Bytes} (h : QueryForm q) (hr : FragStart r) :
    parseQuery (q ++ r) = .ok r := by
  rcases h with rfl | ⟨hhead, htext⟩
  · cases r with
    | nil => rfl
    | cons c p =>
        obtain rfl := hr c rfl
        rfl
  · cases q with
    | nil => cases hhead
    | cons c p =>
        cases hhead
        rw [List.cons_append, parseQuery, if_pos rfl]
        exact queryLoop_complete htext hr _ (by simp)

/-- Fragments are read to the end of the input. -/
theorem parseFragment_iff (s : Bytes) : parseFragment s = .ok [] ↔ FragForm s := by
  cases s with
  | nil => exact iff_of_true rfl (Or.inl rfl)
  | cons c p =>
      rw [parseFragment]
      split
      · next hc =>
          subst hc
          rw [parse_iff]
          constructor
          · rintro ⟨w, rfl, hw, -⟩
            exact Or.inr ⟨w, by rw [List.append_nil], hw⟩
          · rintro (h | ⟨f, h, hf⟩)
            · cases h
            · exact ⟨f, by rw [List.append_nil, (List.cons.inj h).2], hf, stops_nil⟩
      · next hc =>
          refine iff_of_false (fun h => by cases h) ?_
          rintro (h | ⟨f, h, -⟩)
          · cases h
          · exact hc (List.cons.inj h).1

theorem upTo_append (w r : Bytes) : upTo (w ++ r) r = w := by
  rw [upTo, List.length_append, Nat.add_sub_cancel, List.take_left]

theorem QueryForm.fragStart {f : Bytes} (h : FragForm f) : FragStart f := by
  rcases h with rfl | ⟨f, rfl, -⟩
  · intro c hc
    cases hc
  · rintro c ⟨⟩
    rfl

/-- **THE TAIL**: a query and a fragment are cut in one way. -/
theorem parseUrlTail_iff (pt u : Parts) (s : Bytes) :
    parseUrlTail pt s = .ok u ↔
      ∃ q f, s = q ++ f ∧ QueryForm q ∧ FragForm f ∧ u = { pt with query := q, frag := f } := by
  constructor
  · intro h
    rw [parseUrlTail.eq_def] at h
    split at h
    · cases h
    · next p hp =>
        split at h
        · cases h
        · next hf =>
            obtain ⟨q, rfl, hq⟩ := parseQuery_sound hp
            refine ⟨q, p, rfl, hq, (parseFragment_iff p).mp hf, ?_⟩
            rw [← Except.ok.inj h, upTo_append]
            have hall := upTo_append p []
            rw [List.append_nil] at hall
            rw [hall]
        · cases h
  · rintro ⟨q, f, rfl, hq, hf, rfl⟩
    rw [parseUrlTail.eq_def, parseQuery_complete hq (QueryForm.fragStart hf)]
    simp only [(parseFragment_iff f).mpr hf]
    have hall := upTo_append f []
    rw [List.append_nil] at hall
    rw [upTo_append, hall]

/-! ## Hosts -/

/-- What ends a dotted address. -/
def NoAddress (q : Bytes) : Prop := ∀ c ∈ q.head?, isDigit c = false ∧ c ≠ '.'.toUInt8

/-- What ends an address ends the digits of an octet. -/
theorem matchOctetLoop_cut {q : Bytes} (hq : NoAddress q) (v : Nat) (s : Bytes) :
    matchOctetLoop v (s ++ q) = (matchOctetLoop v s).map (fun r => (r.1, r.2 ++ q)) := by
  fun_induction matchOctetLoop v s with
  | case1 v =>
      cases q with
      | nil => rfl
      | cons c p =>
          rw [List.nil_append, matchOctetLoop, (hq c rfl).1]
          rfl
  | case2 v c p hd hbig =>
      rw [List.cons_append, matchOctetLoop, if_pos hd, if_pos hbig]
      rfl
  | case3 v c p hd hbig ih =>
      rw [List.cons_append, matchOctetLoop, if_pos hd, if_neg hbig, ih]
  | case4 v c p hd =>
      rw [List.cons_append, matchOctetLoop, if_neg hd]
      rfl

/-- An octet in front of it is read as if it stood at the end. -/
theorem matchOctet_cut {q : Bytes} (hq : NoAddress q) (s : Bytes) :
    matchOctet (s ++ q) = (matchOctet s).map (fun r => (r.1, r.2 ++ q)) := by
  cases s with
  | nil =>
      cases q with
      | nil => rfl
      | cons c p =>
          show matchOctet (c :: p) = none
          rw [matchOctet, (hq c rfl).1]
          rfl
  | cons c p =>
      rw [List.cons_append, matchOctet, matchOctet]
      split
      · split
        · rfl
        · exact matchOctetLoop_cut hq _ p
      · rfl

/-- An octet and a dot. -/
def octetDot (s : Bytes) : Option Bytes :=
  match matchOctet s with
  | some (_, d :: r) => if d = '.'.toUInt8 then some r else none
  | _ => none

theorem octetDot_cut {q : Bytes} (hq : NoAddress q) (s : Bytes) :
    octetDot (s ++ q) = (octetDot s).map (· ++ q) := by
  rw [octetDot, octetDot, matchOctet_cut hq]
  cases matchOctet s with
  | none => rfl
  | some r =>
      obtain ⟨v, r⟩ := r
      cases r with
      | nil =>
          cases q with
          | nil => rfl
          | cons c p =>
              show (if c = '.'.toUInt8 then some p else none) = none
              rw [if_neg (hq c rfl).2]
      | cons d r =>
          show (if d = '.'.toUInt8 then some (r ++ q) else none)
            = (if d = '.'.toUInt8 then some r else none).map (· ++ q)
          split <;> rfl

/-- The nested tests as a chain: three octets with a dot, and an octet. -/
theorem matchIpV4_eq (s : Bytes) :
    matchIpV4 s = (octetDot s).bind (fun s₁ => (octetDot s₁).bind (fun s₂ =>
      (octetDot s₂).bind (fun s₃ => (matchOctet s₃).map Prod.snd))) := by
  unfold matchIpV4 octetDot
  repeat' split
  all_goals simp_all

/-- **DOTTED ADDRESSES ARE LOCAL**: what ends an address does not change how it is read. -/
theorem matchIpV4_cut {q : Bytes} (hq : NoAddress q) (s : Bytes) :
    matchIpV4 (s ++ q) = (matchIpV4 s).map (· ++ q) := by
  rw [matchIpV4_eq, matchIpV4_eq, octetDot_cut hq]
  cases octetDot s with
  | none => rfl
  | some s₁ =>
      simp only [Option.map_some, Option.bind_some, octetDot_cut hq]
      cases octetDot s₁ with
      | none => rfl
      | some s₂ =>
          simp only [Option.map_some, Option.bind_some, octetDot_cut hq]
          cases octetDot s₂ with
          | none => rfl
          | some s₃ =>
              simp only [Option.map_some, Option.bind_some, matchOctet_cut hq]
              cases matchOctet s₃ <;> rfl

/-! ## Addresses in brackets

    What an address is read from ends at a character, and nothing behind that
    character matters. -/

/-- The digits of a word, in front of a character. -/
theorem parseWordLoop_local {x : UInt8} {r : Bytes} {v' : Nat} :
    ∀ {n v : Nat} {s : Bytes}, parseWordLoop n v s = (v', x :: r) →
      ∃ u, s = u ++ x :: r ∧ ∀ r', parseWordLoop n v (u ++ x :: r') = (v', x :: r') := by
  intro n v s h
  fun_induction parseWordLoop n v s with
  | case1 v s =>
      cases h
      exact ⟨[], rfl, fun _ => rfl⟩
  | case2 n v => cases h
  | case3 n v c p d hd ih =>
      obtain ⟨u, rfl, hu⟩ := ih h
      refine ⟨c :: u, rfl, fun r' => ?_⟩
      rw [List.cons_append, parseWordLoop, hd]
      exact hu r'
  | case4 n v c p hd =>
      cases h
      refine ⟨[], rfl, fun r' => ?_⟩
      rw [List.nil_append, parseWordLoop, hd]

/-- A word that ends in front of a character. -/
theorem parseWord_local {x : UInt8} {s r : Bytes} {v : Nat}
    (h : parseWord s = .ok (v, x :: r)) :
    ∃ u, u ≠ [] ∧ s = u ++ x :: r ∧ ∀ r', parseWord (u ++ x :: r') = .ok (v, x :: r') := by
  cases s with
  | nil => cases h
  | cons c p =>
      rw [parseWord] at h
      split at h
      · next d hd =>
          obtain ⟨u, rfl, hu⟩ := parseWordLoop_local (Except.ok.inj h)
          refine ⟨c :: u, List.cons_ne_nil _ _, rfl, fun r' => ?_⟩
          rw [List.cons_append, parseWord, hd]
          exact congrArg Except.ok (hu r')
      · cases h

/-- The digits of an octet, in front of a character. -/
theorem matchOctetLoop_local {x : UInt8} {r : Bytes} {v' : Nat} :
    ∀ {v : Nat} {s : Bytes}, matchOctetLoop v s = some (v', x :: r) →
      ∃ u, s = u ++ x :: r ∧ ∀ r', matchOctetLoop v (u ++ x :: r') = some (v', x :: r') := by
  intro v s h
  fun_induction matchOctetLoop v s with
  | case1 v => cases h
  | case2 v c p hd hbig => cases h
  | case3 v c p hd hbig ih =>
      obtain ⟨u, rfl, hu⟩ := ih h
      refine ⟨c :: u, rfl, fun r' => ?_⟩
      rw [List.cons_append, matchOctetLoop, if_pos hd, if_neg hbig]
      exact hu r'
  | case4 v c p hd =>
      cases h
      refine ⟨[], rfl, fun r' => ?_⟩
      rw [List.nil_append, matchOctetLoop, if_neg hd]

/-- An octet that ends in front of a character. -/
theorem matchOctet_local {x : UInt8} {s r : Bytes} {v : Nat}
    (h : matchOctet s = some (v, x :: r)) :
    ∃ u, s = u ++ x :: r ∧ ∀ r', matchOctet (u ++ x :: r') = some (v, x :: r') := by
  cases s with
  | nil => cases h
  | cons c p =>
      rw [matchOctet] at h
      split at h
      · next hd =>
          split at h
          · next hzero =>
              cases h
              refine ⟨[c], rfl, fun r' => ?_⟩
              rw [List.cons_append, matchOctet, if_pos hd, if_pos hzero, List.nil_append]
          · next hzero =>
              obtain ⟨u, rfl, hu⟩ := matchOctetLoop_local h
              refine ⟨c :: u, rfl, fun r' => ?_⟩
              rw [List.cons_append, matchOctet, if_pos hd, if_neg hzero]
              exact hu r'
      · cases h

/-- The nested tests of the dotted tail as a chain. -/
theorem parseOctetTail_eq (s : Bytes) :
    parseOctetTail s = match ((octetDot s).bind octetDot).bind matchOctet with
      | some (_, r) => .ok r
      | none => .error .syntaxError := by
  unfold parseOctetTail octetDot
  repeat' split
  all_goals simp_all

/-- An octet and its dot, whatever follows. -/
theorem octetDot_local {s q : Bytes} (h : octetDot s = some q) :
    ∃ u, s = u ++ q ∧ ∀ q', octetDot (u ++ q') = some q' := by
  rw [octetDot.eq_def] at h
  split at h
  · next v d r hr =>
      split at h
      · next hd =>
          cases h
          subst hd
          obtain ⟨u, rfl, hu⟩ := matchOctet_local hr
          refine ⟨u ++ ['.'.toUInt8], by simp, fun q' => ?_⟩
          rw [List.append_assoc, octetDot, List.singleton_append, hu q']
          rfl
      · cases h
  · cases h

/-- A dotted tail that ends in front of a character. -/
theorem parseOctetTail_local {x : UInt8} {s r : Bytes}
    (h : parseOctetTail s = .ok (x :: r)) :
    ∃ u, s = u ++ x :: r ∧ ∀ r', parseOctetTail (u ++ x :: r') = .ok (x :: r') := by
  rw [parseOctetTail_eq] at h
  split at h
  · next v q hw =>
      obtain ⟨s₂, h₂, hoctet⟩ := Option.bind_eq_some_iff.mp hw
      obtain ⟨s₁, h₁, hdot⟩ := Option.bind_eq_some_iff.mp h₂
      cases h
      obtain ⟨u₁, rfl, hu₁⟩ := octetDot_local h₁
      obtain ⟨u₂, rfl, hu₂⟩ := octetDot_local hdot
      obtain ⟨u₃, rfl, hu₃⟩ := matchOctet_local hoctet
      refine ⟨u₁ ++ u₂ ++ u₃, by simp, fun r' => ?_⟩
      rw [parseOctetTail_eq, List.append_assoc, List.append_assoc, hu₁, Option.bind_some,
        hu₂, Option.bind_some, hu₃]
  · cases h

/-- The loop with a certain fuel looks no further than it reads; on the same text any
    fuel that covers it will do. -/
def LoopLocal (fuel : Nat) : Prop :=
  ∀ {n : Nat} {b c : Bool} {word : Nat} {x : UInt8} {s r : Bytes},
    parseIpV6Loop fuel n b c word s = .ok (x :: r) →
    ∃ u, s = u ++ x :: r ∧ ∀ (r' : Bytes) (fuel' : Nat), u.length < fuel' →
      parseIpV6Loop fuel' n b c word (u ++ x :: r') = .ok (x :: r')

/-- A word and what the loop reads behind it; there is at least one digit, so less fuel is
    enough. -/
theorem wordStep_local {fuel n : Nat} {b : Bool} {x : UInt8} {s r : Bytes}
    (hloop : LoopLocal fuel) (h : wordStep fuel n b s = .ok (x :: r)) :
    ∃ y u, (hexDigit y).isSome = true ∧ s = (y :: u) ++ x :: r
      ∧ ∀ (r' : Bytes) (fuel' : Nat), u.length < fuel' →
        wordStep fuel' n b ((y :: u) ++ x :: r') = .ok (x :: r') := by
  rw [wordStep] at h
  split at h
  · cases h
  · next w q hw =>
      have hhex : ∀ {y : UInt8} {t q : Bytes}, parseWord (y :: t) = .ok (w, q) →
          (hexDigit y).isSome = true := by
        intro y t q hword
        rw [parseWord] at hword
        split at hword
        · next d hd => rw [hd]; rfl
        · cases hword
      split at h
      · next hn =>
          cases h
          obtain ⟨u, hne, rfl, hu⟩ := parseWord_local hw
          obtain ⟨y, u, rfl⟩ := List.exists_cons_of_ne_nil hne
          refine ⟨y, u, hhex hw, rfl, fun r' fuel' _ => ?_⟩
          rw [wordStep, hu r']
          exact if_pos hn
      · next hn =>
          obtain ⟨v, rfl, hv⟩ := hloop h
          -- the loop leaves a character, so the word does too
          have hcons : ∃ z t, v ++ x :: r = z :: t ∧ ∀ r', ∃ t', v ++ x :: r' = z :: t' := by
            cases v with
            | nil => exact ⟨x, r, rfl, fun r' => ⟨r', rfl⟩⟩
            | cons z v => exact ⟨z, v ++ x :: r, rfl, fun r' => ⟨v ++ x :: r', rfl⟩⟩
          obtain ⟨z, t, ht, ht'⟩ := hcons
          rw [ht] at hw
          obtain ⟨u, hne, rfl, hu⟩ := parseWord_local hw
          obtain ⟨y, u, rfl⟩ := List.exists_cons_of_ne_nil hne
          refine ⟨y, u ++ v, hhex hw, by rw [← ht]; simp, fun r' fuel' hfuel => ?_⟩
          obtain ⟨t', ht'⟩ := ht' r'
          have hsplit : (y :: (u ++ v)) ++ x :: r' = (y :: u) ++ (z :: t') := by
            rw [← ht']
            simp
          rw [hsplit, wordStep, hu t', ← ht']
          rw [List.length_append] at hfuel
          exact (if_neg hn).trans (hv r' fuel' (by omega))

/-- **THE ADDRESS LOOP IS LOCAL.** -/
theorem parseIpV6Loop_local : ∀ fuel, LoopLocal fuel := by
  intro fuel
  induction fuel with
  | zero =>
      intro n b c word x s r h
      cases h
  | succ fuel ih =>
      intro n b c word x s r h
      have hfuel : ∀ {m fuel' : Nat}, m < fuel' → ∃ k, fuel' = k + 1 ∧ m ≤ k :=
        fun hlt => ⟨_, (Nat.succ_pred_eq_of_pos (Nat.lt_of_le_of_lt (Nat.zero_le _) hlt)).symm,
          Nat.le_pred_of_lt hlt⟩
      rw [parseIpV6Loop.eq_def] at h
      cases s with
      | nil =>
          dsimp only at h
          split at h <;> cases h
      | cons y p =>
          dsimp only at h
          split at h
          · next hy =>
              subst hy
              split at h
              · cases h
              · next z p' =>
                  split at h
                  · next hz =>
                      subst hz
                      split at h
                      · cases h
                      · next hb =>
                          obtain rfl : b = false := Bool.not_eq_true _ ▸ hb
                          split at h
                          · next hn =>
                              cases h
                              refine ⟨[':'.toUInt8, ':'.toUInt8], rfl, fun r' fuel' hlt => ?_⟩
                              obtain ⟨k, rfl, -⟩ := hfuel hlt
                              exact (loop_gap k n c word (x :: r')).trans (if_pos hn)
                          · next hn =>
                              obtain ⟨u, rfl, hu⟩ := ih h
                              refine ⟨':'.toUInt8 :: ':'.toUInt8 :: u, rfl,
                                fun r' fuel' hlt => ?_⟩
                              obtain ⟨k, rfl, hk⟩ := hfuel hlt
                              exact ((loop_gap k n c word (u ++ x :: r')).trans
                                (if_neg hn)).trans (hu r' k (by simp only [List.length_cons] at hk; omega))
                  · split at h
                    · next hc =>
                        subst hc
                        obtain ⟨y, u, hy, hs, hu⟩ := wordStep_local ih h
                        refine ⟨':'.toUInt8 :: y :: u, by rw [hs]; rfl,
                          fun r' fuel' hlt => ?_⟩
                        obtain ⟨k, rfl, hk⟩ := hfuel hlt
                        exact (loop_colon k n b word (u ++ x :: r') hy).trans
                          (hu r' k (by simp only [List.length_cons] at hk; omega))
                    · cases h
          · next hcolon =>
              split at h
              · next hy =>
                  subst hy
                  split at h
                  · cases h
                  · next hgap =>
                      split at h
                      · cases h
                      · next hoctet =>
                          obtain ⟨u, rfl, hu⟩ := parseOctetTail_local h
                          refine ⟨'.'.toUInt8 :: u, rfl, fun r' fuel' hlt => ?_⟩
                          obtain ⟨k, rfl, -⟩ := hfuel hlt
                          rw [List.cons_append, parseIpV6Loop.eq_def]
                          dsimp only
                          rw [if_neg hcolon, if_pos rfl, if_neg hgap, if_neg hoctet]
                          exact hu r'
              · next hdot =>
                  split at h
                  · next hend =>
                      cases h
                      refine ⟨[], rfl, fun r' fuel' hlt => ?_⟩
                      obtain ⟨k, rfl, -⟩ := hfuel hlt
                      rw [List.nil_append, parseIpV6Loop.eq_def]
                      dsimp only
                      rw [if_neg hcolon, if_neg hdot, if_pos hend]
                  · split at h
                    · next hc =>
                        obtain rfl : c = false := by simpa using hc
                        obtain ⟨y, u, hy, hs, hu⟩ := wordStep_local ih h
                        refine ⟨y :: u, hs, fun r' fuel' hlt => ?_⟩
                        obtain ⟨k, rfl, hk⟩ := hfuel hlt
                        exact (loop_word k n b word (u ++ x :: r') hy).trans
                          (hu r' k (by simp only [List.length_cons] at hk; omega))
                    · cases h

/-- An address that ends in front of a character. -/
theorem parseIpV6_local {x : UInt8} {s r : Bytes} (h : parseIpV6 s = .ok (x :: r)) :
    ∃ u, s = u ++ x :: r ∧ ∀ r', parseIpV6 (u ++ x :: r') = .ok (x :: r') := by
  rw [parseIpV6.eq_def] at h
  split at h
  · cases h
  · obtain ⟨u, rfl, hu⟩ := parseIpV6Loop_local _ h
    refine ⟨u, rfl, fun r' => ?_⟩
    rw [parseIpV6.eq_def]
    split
    · next hnil => exact absurd hnil (by simp)
    · exact hu r' _ (by simp only [List.length_append]; omega)

/-- **AN ADDRESS IN BRACKETS** ends at its bracket, whatever follows. -/
theorem parseIpLiteral_iff (s r : Bytes) :
    parseIpLiteral s = .ok r ↔ ∃ h, s = h ++ r ∧ parseIpLiteral h = .ok [] := by
  constructor
  · intro h
    rw [parseIpLiteral.eq_def] at h
    split at h
    · cases h
    · next c p =>
        split at h
        · next hc =>
            subst hc
            split at h
            · cases h
            · next x p' hp =>
                split at h
                · next hx =>
                    subst hx
                    cases h
                    obtain ⟨u, rfl, hu⟩ := parseIpV6_local hp
                    refine ⟨'['.toUInt8 :: (u ++ [']'.toUInt8]), by simp, ?_⟩
                    rw [parseIpLiteral, if_pos rfl, hu []]
                    rfl
                · cases h
            · cases h
        · cases h
  · rintro ⟨w, rfl, h⟩
    rw [parseIpLiteral.eq_def] at h
    split at h
    · cases h
    · next c p =>
        split at h
        · next hc =>
            subst hc
            split at h
            · cases h
            · next x p' hp =>
                split at h
                · next hx =>
                    subst hx
                    cases h
                    obtain ⟨u, rfl, hu⟩ := parseIpV6_local hp
                    rw [List.cons_append, List.append_assoc, List.singleton_append,
                      parseIpLiteral, if_pos rfl, hu r]
                    rfl
                · cases h
            · cases h
        · cases h

/-! ## Host and port -/

/-- The two sets of the user information differ in the colon. -/
theorem userinfo_special (c : UInt8) : userinfoPctSet.isSpecial c
    = (userinfoNcPctSet.isSpecial c && !decide (c = ':'.toUInt8)) := by
  have hcolon : (lit ":").contains c = decide (c = ':'.toUInt8) := by
    rw [Bool.eq_iff_iff]
    simp [lit]
  rw [isSpecial, isSpecial, userinfoPctSet, userinfoNcPctSet, regNamePctSet]
  simp only [List.contains_append, hcolon, Bool.not_or]

/-- Digits are plain in a name. -/
theorem digit_plain : ∀ c, isDigit c = true →
    c ≠ '%'.toUInt8 ∧ regNamePctSet.isSpecial c = false :=
  forall_byte (by decide +kernel)

theorem noAddress_of_stops {q : Bytes} (h : regNamePctSet.Stops q) : NoAddress q := by
  intro c hc
  have hspecial := (h c hc).2
  constructor
  · rw [Bool.eq_false_iff]
    intro hdigit
    rw [(digit_plain c hdigit).2] at hspecial
    cases hspecial
  · rintro rfl
    have hdot : regNamePctSet.isSpecial '.'.toUInt8 = false := by decide
    rw [hdot] at hspecial
    cases hspecial

/-- The characters of an address are plain in a name. -/
theorem text_of_matchIpV4 {s r : Bytes} (h : matchIpV4 s = some r) :
    ∃ w, s = w ++ r ∧ ∀ t, regNamePctSet.Text (w ++ t) ↔ regNamePctSet.Text t := by
  obtain ⟨w, rfl, hw⟩ := matchIpV4_consumes digit_plain (by decide) h
  exact ⟨w, rfl, fun t => text_plain_append hw⟩

/-- An octet and a dot, in the grammar. -/
theorem octetDot_iff {s r : Bytes} :
    octetDot s = some r ↔ ∃ o, DecOctet o ∧ s = o ++ '.'.toUInt8 :: r := by
  constructor
  · intro h
    rw [octetDot.eq_def] at h
    split at h
    · next v d r' hr =>
        split at h
        · next hd =>
            cases h
            obtain ⟨o, rfl, ho⟩ := matchOctet_sound hr
            exact ⟨o, ho, by rw [hd]⟩
        · cases h
    · cases h
  · rintro ⟨o, ho, rfl⟩
    rw [octetDot, matchOctet_dot r ho]
    rfl

/-- **DOTTED ADDRESSES** are read to their end, and nothing else is. -/
theorem matchIpV4_iff {s : Bytes} : matchIpV4 s = some [] ↔ IPv4Address s := by
  rw [matchIpV4_eq]
  constructor
  · intro h
    obtain ⟨s₁, h₁, h⟩ := Option.bind_eq_some_iff.mp h
    obtain ⟨s₂, h₂, h⟩ := Option.bind_eq_some_iff.mp h
    obtain ⟨s₃, h₃, h⟩ := Option.bind_eq_some_iff.mp h
    obtain ⟨⟨v, r⟩, h₄, rfl⟩ := Option.map_eq_some_iff.mp h
    obtain ⟨a, ha, rfl⟩ := octetDot_iff.mp h₁
    obtain ⟨b, hb, rfl⟩ := octetDot_iff.mp h₂
    obtain ⟨c, hc, rfl⟩ := octetDot_iff.mp h₃
    obtain ⟨d, rfl, hd⟩ := matchOctet_sound h₄
    exact ⟨a, b, c, d, ha, hb, hc, hd, by rw [List.append_nil]⟩
  · rintro ⟨a, b, c, d, ha, hb, hc, hd, rfl⟩
    have hlast := matchOctet_append (r := []) hd (fun c hc => by cases hc)
    rw [List.append_nil] at hlast
    rw [octetDot_iff.mpr ⟨a, ha, rfl⟩, Option.bind_some, octetDot_iff.mpr ⟨b, hb, rfl⟩,
      Option.bind_some, octetDot_iff.mpr ⟨c, hc, rfl⟩, Option.bind_some, hlast]
    rfl

/-- An address of the grammar is a host in brackets exactly when it has no lowercase
    hexadecimal digit. -/
theorem hostForm_ipv6 {a : Bytes} (h : IPv6Address a) :
    HostForm .ipv6 ('['.toUInt8 :: (a ++ [']'.toUInt8])) ↔ ∀ c ∈ a, NotLower c :=
  parseIpLiteral_address h

/-- **HOSTS ARE CUT** at the first character that no host holds. -/
theorem parseHostname_sound {s r : Bytes} {t : HostType} (h : parseHostname s = .ok (t, r)) :
    ∃ w, s = w ++ r ∧ HostForm t w := by
  rw [parseHostname.eq_def] at h
  split at h
  · next p hp =>
      cases h
      exact (parseIpLiteral_iff s r).mp hp
  · rw [parseIpv4OrDomain.eq_def] at h
    split at h
    · next p₁ h₁ =>
        split at h
        · cases h
        · next p hp =>
            obtain ⟨rfl, rfl⟩ := Prod.mk.inj (Except.ok.inj h)
            obtain ⟨w, rfl, htext, hstop⟩ := parse_iff.mp hp
            obtain ⟨a, rfl, ha⟩ := text_of_matchIpV4 h₁
            refine ⟨a ++ w, (List.append_assoc ..).symm, ?_⟩
            rw [← List.append_assoc, matchIpV4_cut (noAddress_of_stops hstop)] at h₁
            obtain ⟨r', hr', heq⟩ := Option.map_eq_some_iff.mp h₁
            have hw : r' = w := List.append_cancel_right heq
            rw [hw] at hr'
            by_cases hnil : w = []
            · rw [if_pos (List.self_eq_append_left.mpr hnil)]
              exact matchIpV4_iff.mp (hr'.trans (congrArg some hnil))
            · rw [if_neg (fun hc => hnil (List.self_eq_append_left.mp hc))]
              refine ⟨by simp [hnil], (ha _).mpr htext, fun haddr => ?_⟩
              have hall := matchIpV4_iff.mpr haddr
              rw [hr'] at hall
              exact hnil (Option.some.inj hall)
    · next hnone =>
        split at h
        · cases h
        · next p hp =>
            obtain ⟨rfl, rfl⟩ := Prod.mk.inj (Except.ok.inj h)
            obtain ⟨w, rfl, htext, hstop⟩ := parse_iff.mp hp
            refine ⟨w, rfl, ?_⟩
            rw [matchIpV4_cut (noAddress_of_stops hstop), Option.map_eq_none_iff] at hnone
            by_cases hnil : w = []
            · rw [if_pos (List.self_eq_append_left.mpr hnil)]
              exact hnil
            · rw [if_neg (fun hc => hnil (List.self_eq_append_left.mp hc))]
              refine ⟨hnil, htext, fun haddr => ?_⟩
              rw [matchIpV4_iff.mpr haddr] at hnone
              cases hnone
  · cases h

/-- A host and its port. -/
theorem parseHost_sound {pt pt' : Parts} {s r : Bytes} (hport : pt.port = [])
    (h : parseHost pt s = .ok (pt', r)) :
    ∃ w t p, s = w ++ p ++ r ∧ HostForm t w ∧ PortForm p
      ∧ pt' = { pt with host := w, hostType := t, port := p } := by
  rw [parseHost.eq_def] at h
  split at h
  · cases h
  · next t q hq =>
      obtain ⟨w, rfl, hw⟩ := parseHostname_sound hq
      rw [upTo_append] at h
      split at h
      · cases h
        exact ⟨w, t, [], by simp, hw, Or.inl rfl, by rw [← hport]⟩
      · next c p =>
          split at h
          · next hc =>
              subst hc
              cases h
              have hcut : ':'.toUInt8 :: p
                  = ':'.toUInt8 :: p.takeWhile isDigit ++ matchPort p := by
                rw [List.cons_append, matchPort, List.takeWhile_append_dropWhile]
              refine ⟨w, t, ':'.toUInt8 :: p.takeWhile isDigit, ?_, hw, Or.inr ⟨_, rfl, ?_⟩, ?_⟩
              · rw [List.append_assoc, ← hcut]
              · exact fun c hc => List.mem_takeWhile_imp hc
              · rw [hcut, upTo_append]
          · cases h
            exact ⟨w, t, [], by simp, hw, Or.inl rfl, by rw [← hport]⟩

/-- A literal is matched when the input starts with it. -/
theorem matchLiteral_iff {l s p : Bytes} : matchLiteral l s = some p ↔ s = l ++ p := by
  rw [matchLiteral]
  constructor
  · intro h
    split at h
    · next hl =>
        obtain ⟨q, rfl⟩ := List.isPrefixOf_iff_prefix.mp hl
        rw [← Option.some.inj h, List.drop_left]
    · cases h
  · rintro rfl
    rw [if_pos (List.isPrefixOf_iff_prefix.mpr (List.prefix_append l p)), List.drop_left]

/-- **AN AUTHORITY** is cut into user information, host and port, and nothing is lost. -/
theorem parseAuthority_sound {sc s r : Bytes} {u : Parts}
    (h : parseAuthority { scheme := sc } s = .ok (u, r)) :
    UserinfoForm u.user u.password ∧ HostForm u.hostType u.host ∧ PortForm u.port
      ∧ lit "//" ++ s = u.user ++ u.password ++ u.host ++ u.port ++ r
      ∧ u.scheme = sc ∧ u.path = [] ∧ u.query = [] ∧ u.frag = [] := by
  have hcolon : ∀ c, userinfoNcPctSet.isSpecial c = true → userinfoPctSet.isSpecial c = false →
      c = ':'.toUInt8 := by
    intro c hspecial hplain
    rw [userinfo_special, hspecial, Bool.true_and, Bool.not_eq_false'] at hplain
    exact of_decide_eq_true hplain
  rw [parseAuthority.eq_def] at h
  split at h
  · cases h
  · next user password q hui =>
      split at h
      · next p' hat =>
          obtain ⟨w, t, p, rfl, hw, hp, rfl⟩ := parseHost_sound rfl h
          obtain rfl := matchLiteral_iff.mp hat
          rw [parseUserinfo.eq_def] at hui
          split at hui
          · cases hui
          · next p₁ h₁ =>
              split at hui
              · cases hui
              · next p₂ h₂ =>
                  obtain ⟨a, rfl, ha, hstop⟩ := parse_iff.mp h₁
                  obtain ⟨b, rfl, hb, -⟩ := parse_iff.mp h₂
                  cases hui
                  rw [upTo_append, upTo_append]
                  refine ⟨Or.inr ⟨a, b, rfl, rfl, ha, hb, ?_⟩, hw, hp, by simp [lit], rfl, rfl,
                    rfl, rfl⟩
                  intro c hc
                  cases hb with
                  | nil => cases hc
                  | plain hpct hplain _ =>
                      cases hc
                      exact hcolon _ (hstop _ rfl).2 hplain
                  | escape _ _ _ => exact absurd rfl (hstop _ rfl).1
      · obtain ⟨w, t, p, rfl, hw, hp, rfl⟩ := parseHost_sound rfl h
        exact ⟨Or.inl ⟨rfl, rfl⟩, hw, hp, by simp, rfl, rfl, rfl, rfl⟩

/-- **BEFORE THE QUERY**: the authority and the path, and nothing is lost. -/
theorem parsePart_sound {e : PctEncoding} {sc s r : Bytes} {u : Parts}
    (h : parsePart (parsePathFrom e) { scheme := sc } s = .ok (u, r)) :
    u.AuthorityForm ∧ PathText (u.user ≠ []) e u.path r
      ∧ s = u.user ++ u.password ++ u.host ++ u.port ++ u.path ++ r
      ∧ u.scheme = sc ∧ u.query = [] ∧ u.frag = [] := by
  rw [parsePart.eq_def] at h
  split at h
  · next p hp =>
      obtain rfl := matchLiteral_iff.mp hp
      split at h
      · cases h
      · next pt p₁ hauth =>
          obtain ⟨hui, hw, hport, hs, hsc, -, hq, hf⟩ := parseAuthority_sound hauth
          split at h
          · cases h
          · next p₂ hpath =>
              obtain ⟨t, rfl, ht⟩ := parseSegments_sound hpath
              cases h
              rw [upTo_append]
              have huser : pt.user ≠ [] := by
                rcases hui with ⟨hu, -⟩ | ⟨a, b, hu, -⟩ <;> rw [hu] <;> simp [lit]
              exact ⟨Or.inr ⟨hui, hw, hport⟩, Or.inl ⟨huser, ht⟩, by rw [hs]; simp,
                hsc, hq, hf⟩
  · split at h
    · next p hp =>
        cases h
        rcases parsePathAbsolute_sound hp with ⟨rfl, rfl⟩ | ⟨d, w, t, rfl, hd, hw, ht⟩
        · exact ⟨Or.inl ⟨rfl, rfl, rfl, rfl, rfl⟩,
            Or.inr ⟨fun hc => hc rfl, Or.inr (Or.inl ⟨rfl, rfl⟩)⟩, rfl, rfl, rfl, rfl⟩
        · rw [upTo_append]
          exact ⟨Or.inl ⟨rfl, rfl, rfl, rfl, rfl⟩,
            Or.inr ⟨fun hc => hc rfl, Or.inr (Or.inr (Or.inl ⟨d, w, t, rfl, hd, hw, ht⟩))⟩,
            rfl, rfl, rfl, rfl⟩
    · split at h
      · next p hp =>
          cases h
          obtain ⟨w, t, rfl, hne, hw, ht⟩ := parsePathFrom_sound hp
          rw [upTo_append]
          exact ⟨Or.inl ⟨rfl, rfl, rfl, rfl, rfl⟩,
            Or.inr ⟨fun hc => hc rfl, Or.inr (Or.inr (Or.inr ⟨w, t, rfl, hne, hw, ht⟩))⟩,
            rfl, rfl, rfl, rfl⟩
      · cases h
        exact ⟨Or.inl ⟨rfl, rfl, rfl, rfl, rfl⟩, Or.inr ⟨fun hc => hc rfl, Or.inl rfl⟩,
          rfl, rfl, rfl, rfl⟩
      · cases h
    · cases h

/-- A scheme is cut off at its colon. -/
theorem matchSchemeColon_iff {s p : Bytes} :
    matchSchemeColon s = some p ↔
      ∃ a, s = a ++ [':'.toUInt8] ++ p ∧ matchScheme a = some [] := by
  rw [matchSchemeColon, Option.bind_eq_some_iff]
  constructor
  · rintro ⟨q, hq, hcolon⟩
    obtain rfl := matchLiteral_iff.mp hcolon
    cases s with
    | nil => cases hq
    | cons c t =>
        rw [matchScheme] at hq
        split at hq
        · next hc =>
            have hdrop := Option.some.inj hq
            refine ⟨c :: t.takeWhile isSchemeChar, ?_, ?_⟩
            · rw [List.cons_append, List.cons_append, List.append_assoc]
              have hcut := List.takeWhile_append_dropWhile (p := isSchemeChar) (l := t)
              rw [hdrop] at hcut
              exact congrArg (c :: ·) hcut.symm
            · rw [matchScheme, if_pos hc]
              exact congrArg some (List.dropWhile_eq_nil_iff.mpr
                (fun x hx => List.mem_takeWhile_imp hx))
        · cases hq
  · rintro ⟨a, rfl, ha⟩
    refine ⟨':'.toUInt8 :: p, ?_, matchLiteral_iff.mpr rfl⟩
    cases a with
    | nil => cases ha
    | cons c t =>
        rw [matchScheme] at ha
        split at ha
        · next hc =>
            have hall := List.dropWhile_eq_nil_iff.mp (Option.some.inj ha)
            rw [List.cons_append, List.cons_append, matchScheme, if_pos hc, List.append_assoc,
              List.dropWhile_append_of_pos (fun x hx => hall x hx)]
            rfl
        · cases ha

theorem isAlpha_iff {c : UInt8} : isAlpha c = true ↔ Letter c := by
  rw [isAlpha, Letter, Bool.or_eq_true, Bool.and_eq_true, Bool.and_eq_true]
  simp only [decide_eq_true_eq]

theorem isSchemeChar_iff {c : UInt8} : isSchemeChar c = true ↔ Letter c ∨ c ∈ lit "+-." := by
  have hlit : lit "+-." = ['+'.toUInt8, '-'.toUInt8, '.'.toUInt8] := by decide
  rw [isSchemeChar, hlit]
  simp only [Bool.or_eq_true, isAlpha_iff, beq_iff_eq, List.mem_cons, List.not_mem_nil, or_false,
    or_assoc]

/-- What the parser takes as a scheme, in the grammar. -/
theorem schemeForm_iff {s : Bytes} :
    SchemeForm s ↔ s = [] ∨ ∃ a, s = a ++ [':'.toUInt8] ∧ matchScheme a = some [] := by
  refine or_congr_right ?_
  constructor
  · rintro ⟨c, t, rfl, hc, ht⟩
    refine ⟨c :: t, rfl, ?_⟩
    rw [matchScheme, if_pos (isAlpha_iff.mpr hc)]
    exact congrArg some (List.dropWhile_eq_nil_iff.mpr fun d hd =>
      isSchemeChar_iff.mpr (ht d hd))
  · rintro ⟨a, rfl, ha⟩
    cases a with
    | nil => cases ha
    | cons c t =>
        rw [matchScheme] at ha
        split at ha
        · next hc =>
            have hall := List.dropWhile_eq_nil_iff.mp (Option.some.inj ha)
            exact ⟨c, t, rfl, isAlpha_iff.mp hc, fun d hd => isSchemeChar_iff.mp (hall d hd)⟩
        · cases ha

/-- What the two halves of the parser have read is well formed. -/
theorem wellFormed_of_parsed {sc s r : Bytes} {e : PctEncoding} {pt u : Parts}
    (hsc : SchemeForm sc) (he : e = if sc = [] then pcharNcPctSet else pcharPctSet)
    (hpart : parsePart (parsePathFrom e) { scheme := sc } s = .ok (pt, r))
    (htail : parseUrlTail pt r = .ok u) : u.WellFormed ∧ u.encodedUrl = sc ++ s := by
  obtain ⟨hauth, hpath, hs, hscheme, -, -⟩ := parsePart_sound hpart
  obtain ⟨q, f, rfl, hq, hf, rfl⟩ := (parseUrlTail_iff pt u r).mp htail
  refine ⟨⟨?_, hauth, ?_, hq, hf⟩, ?_⟩
  · rw [← hscheme] at hsc
    exact hsc
  · rw [he, ← hscheme] at hpath
    exact hpath
  · rw [hs, Parts.encodedUrl, hscheme]
    simp only [List.append_assoc]

/-- What is accepted is well formed, and nothing is lost. -/
theorem parseUrl_sound {s : Bytes} {u : Parts} (h : parseUrl s = .ok u) :
    u.WellFormed ∧ u.encodedUrl = s := by
  rw [parseUrl.eq_def] at h
  split at h
  · next p hp =>
      obtain ⟨a, rfl, ha⟩ := matchSchemeColon_iff.mp hp
      rw [upTo_append] at h
      split at h
      · cases h
      · next pt r hpart =>
          have hne : a ++ [':'.toUInt8] ≠ [] := by simp
          exact wellFormed_of_parsed (schemeForm_iff.mpr (Or.inr ⟨a, rfl, ha⟩)) (if_neg hne).symm hpart h
  · split at h
    · cases h
    · next pt r hpart =>
        exact wellFormed_of_parsed (Or.inl rfl) (if_pos rfl).symm hpart h

end BoostUrl
