import BookFilerHttp.FramingProofs
import BookFilerHttp.HttpRequestProofs

/-! # Cookies: `CookieImpl`

    A cookie is written in two formats, Netscape for version 0 and RFC 2109 for
    version 1, and read from a map of name/value pairs whose keys are compared
    letter by letter; any other key is taken as the name of the cookie.

    The writer is translated as it appends, `writtenPairs` reads its pairs back
    off the text, and `readBack_iff` says for which cookies the reader, given
    these pairs, returns the cookie: for version 0 without a priority.  The
    writer spells `Priority` and all attributes of version 1 with a capital, the
    reader only knows them in lower case. -/

namespace HttpCookie

open ByteString Framing HttpRequest

/-! ## The cookie -/

inductive SameSite where
  | notSpecified
  | none
  | lax
  | strict
  deriving DecidableEq

structure CookieImpl where
  version : Int := 0
  name : Bytes := []
  value : Bytes := []
  comment : Bytes := []
  domain : Bytes := []
  path : Bytes := []
  priority : Bytes := []
  secure : Bool := false
  maxAge : Int := -1
  httpOnly : Bool := false
  sameSite : SameSite := .notSpecified
  deriving DecidableEq

/-- The clock and the locale: the text `put_time` writes for the time that many
    seconds from now, and the seconds from now to the time that `get_time` reads. -/
structure Clock where
  expiresText : Int → Bytes
  secondsUntil : Bytes → Int
  no_semicolon : ∀ n, ';'.toUInt8 ∉ expiresText n

/-! ## The reader -/

def isSpace (c : UInt8) : Bool := c == 32 || (9 ≤ c && c ≤ 13)

def isDigit (c : UInt8) : Bool := 48 ≤ c && c ≤ 57

/-- The digits at the start of a string, as a number. -/
def leadingNumber (s : Bytes) : Option Nat :=
  let digits := s.takeWhile isDigit
  if digits = [] then none
  else some (digits.foldl (fun n d => 10 * n + (d.toNat - 48)) 0)

/-- `std::stoi`: white space, a sign, digits; `none` is the exception, without
    digits or out of the range of an `int`. -/
def stoi (s : Bytes) : Option Int :=
  let t := s.dropWhile isSpace
  let n : Option Int := match t with
    | c :: rest =>
        if c = '-'.toUInt8 then (leadingNumber rest).map (fun n => -(n : Int))
        else if c = '+'.toUInt8 then (leadingNumber rest).map (fun n => (n : Int))
        else (leadingNumber t).map (fun n => (n : Int))
    | [] => none
  n.filter (fun n => -2 ^ 31 ≤ n && n < 2 ^ 31)

/-- One pair of the map constructor; the keys are compared as they are. -/
def readPair (clock : Clock) (c : CookieImpl) (p : Bytes × Bytes) :
    Option CookieImpl :=
  let (name, value) := p
  if name = lit "comment" then some { c with comment := value }
  else if name = lit "domain" then some { c with domain := value }
  else if name = lit "path" then some { c with path := value }
  else if name = lit "priority" then some { c with priority := value }
  else if name = lit "max-age" then
    (stoi value).map (fun n => { c with maxAge := n })
  else if name = lit "secure" then some { c with secure := true }
  else if name = lit "expires" then
    -- the count of seconds is cut down to an `int`
    some { c with maxAge := (clock.secondsUntil value).bmod (2 ^ 32) }
  else if name = lit "SameSite" then
    if value = lit "None" then some { c with sameSite := .none }
    else if value = lit "Lax" then some { c with sameSite := .lax }
    else if value = lit "Strict" then some { c with sameSite := .strict }
    else some c
  else if name = lit "version" then
    (stoi value).map (fun n => { c with version := n })
  else if name = lit "HttpOnly" then some { c with httpOnly := true }
  else some { c with name := name, value := value }

/-- The loop of the map constructor. -/
def readPairs (clock : Clock) : List (Bytes × Bytes) → CookieImpl → Option CookieImpl
  | [], c => some c
  | p :: rest, c =>
      match readPair clock c p with
      | some c' => readPairs clock rest c'
      | none => none

/-- `CookieImpl(map)`; `none` when it raises. -/
def CookieImpl.ofMap (clock : Clock) (nvc : OrdMap.Map Bytes Bytes) :
    Option CookieImpl :=
  readPairs clock nvc.entries {}

/-! ## The writer -/

/-- An attribute that is written unless its field is empty. -/
def ifSet (label field close : Bytes) : Bytes :=
  if field = [] then [] else label ++ field ++ close

/-- `std::to_string` of an `int`. -/
def intText (n : Int) : Bytes :=
  if n < 0 then '-'.toUInt8 :: decimal n.natAbs else decimal n.natAbs

namespace CookieImpl

def sameSiteText (c : CookieImpl) : Bytes :=
  match c.sameSite with
  | .none => lit "; SameSite=None"
  | .lax => lit "; SameSite=Lax"
  | .strict => lit "; SameSite=Strict"
  | .notSpecified => []

/-- What both formats write after the maximum age. -/
def flagsText (c : CookieImpl) : Bytes :=
  c.sameSiteText ++ (if c.secure then lit "; secure" else [])
    ++ (if c.httpOnly then lit "; HttpOnly" else [])

def toString (clock : Clock) (c : CookieImpl) : Bytes :=
  c.name ++ lit "="
    ++ if c.version = 0 then
      -- Netscape cookie
      c.value ++ (ifSet (lit "; domain=") c.domain []
        ++ ifSet (lit "; path=") c.path []
        ++ ifSet (lit "; Priority=") c.priority []
        ++ (if c.maxAge = -1 then [] else
          lit "; expires=" ++ clock.expiresText c.maxAge)
        ++ c.flagsText)
    else
      -- RFC 2109 cookie
      lit "\"" ++ c.value ++ lit "\"" ++ (ifSet (lit "; Comment=\"") c.comment (lit "\"")
        ++ ifSet (lit "; Domain=\"") c.domain (lit "\"")
        ++ ifSet (lit "; Path=\"") c.path (lit "\"")
        ++ ifSet (lit "; Priority=\"") c.priority (lit "\"")
        ++ (if c.maxAge = -1 then [] else
          lit "; Max-Age=\"" ++ intText c.maxAge ++ lit "\"")
        ++ c.flagsText ++ lit "; Version=\"1\"")

end CookieImpl

/-! ## The pairs of a text -/

/-- The double quote. -/
def quote : UInt8 := 34

/-- A value without the quotes around it. -/
def unquote (v : Bytes) : Bytes :=
  if v.head? = some quote then (v.drop 1).dropLast else v

/-- A name and its value; a flag has the empty value. -/
def cutPair (text : Bytes) : Bytes × Bytes :=
  (beforeFirst '='.toUInt8 text, unquote (afterFirst '='.toUInt8 text))

/-- The pairs of a cookie text: a semicolon and a space stand between them. -/
def writtenPairs (text : Bytes) : List (Bytes × Bytes) :=
  match text.splitOn ';'.toUInt8 with
  | [] => []
  | first :: rest => cutPair first :: rest.map (fun t => cutPair (t.drop 1))

/-- The attributes that carry the age. -/
def isExpiry (name : Bytes) : Bool := name == lit "expires" || name == lit "Max-Age"

/-- The map of the pairs that `toString` writes, without the age. -/
def pairMap (clock : Clock) (c : CookieImpl) : OrdMap.Map Bytes Bytes :=
  OrdMap.insertAll
    ((writtenPairs (c.toString clock)).filter (fun p => !isExpiry p.1)) OrdMap.empty

/-- The names of the attributes, in lower case. -/
def attributeNames : List Bytes :=
  [lit "comment", lit "domain", lit "path", lit "priority", lit "max-age",
    lit "secure", lit "expires", lit "samesite", lit "version", lit "httponly"]

/-- An attribute name, ignoring case. -/
def isAttribute (name : Bytes) : Bool :=
  attributeNames.contains (name.map RequestBeast.toLower)

/-- No semicolon, no quote, no equals sign. -/
def plain (s : Bytes) : Bool := s.all (fun c => !(lit ";\"=").contains c)

/-- The cookies that can be written and told apart. -/
structure Writable (c : CookieImpl) : Prop where
  version : c.version = 0 ∨ c.version = 1
  name_ne : c.name ≠ []
  not_attribute : isAttribute c.name = false
  plain : ∀ s ∈ [c.name, c.value, c.comment, c.domain, c.path, c.priority],
    HttpCookie.plain s = true

/-- The cookie that is read is the one that was written. -/
structure SameCookie (c r : CookieImpl) : Prop where
  name : r.name = c.name
  value : r.value = c.value
  domain : r.domain = c.domain
  path : r.path = c.path
  priority : r.priority = c.priority
  sameSite : r.sameSite = c.sameSite
  secure : r.secure = c.secure
  httpOnly : r.httpOnly = c.httpOnly
  rfc2109 : c.version = 1 → r.comment = c.comment ∧ r.version = c.version

/-! ## Reading the text back -/

/-- The text is a run of attributes, each behind a semicolon and a space, that
    are cut into the given pairs. -/
def Attributes (s : Bytes) (ps : List (Bytes × Bytes)) : Prop :=
  ∃ texts : List Bytes, s = texts.flatMap (fun t => lit "; " ++ t)
    ∧ (∀ t ∈ texts, ';'.toUInt8 ∉ t) ∧ texts.map cutPair = ps

theorem Attributes.nil : Attributes [] [] :=
  ⟨[], rfl, fun _ ht => (nomatch ht), rfl⟩

theorem Attributes.one {t : Bytes} (h : ';'.toUInt8 ∉ t) :
    Attributes (lit "; " ++ t) [cutPair t] := by
  refine ⟨[t], (List.append_nil _).symm, ?_, rfl⟩
  intro t' ht'
  rw [List.mem_singleton.mp ht']
  exact h

theorem Attributes.append {s s' : Bytes} {ps ps' : List (Bytes × Bytes)}
    (h : Attributes s ps) (h' : Attributes s' ps') :
    Attributes (s ++ s') (ps ++ ps') := by
  obtain ⟨texts, rfl, hsemi, rfl⟩ := h
  obtain ⟨texts', rfl, hsemi', rfl⟩ := h'
  refine ⟨texts ++ texts', List.flatMap_append.symm, ?_, List.map_append⟩
  intro t ht
  rcases List.mem_append.mp ht with ht | ht
  · exact hsemi t ht
  · exact hsemi' t ht

/-- Splitting at the semicolons gives the texts, each with its space. -/
theorem splitOn_attributes (texts : List Bytes) :
    ∀ {first : Bytes}, ';'.toUInt8 ∉ first → (∀ t ∈ texts, ';'.toUInt8 ∉ t) →
      (first ++ texts.flatMap (fun t => lit "; " ++ t)).splitOn ';'.toUInt8
        = first :: texts.map (fun t => ' '.toUInt8 :: t) := by
  induction texts with
  | nil =>
      intro first hfirst _
      rw [List.flatMap_nil, List.append_nil]
      exact List.splitOn_eq_singleton hfirst
  | cons t rest ih =>
      intro first hfirst hall
      have ht : ';'.toUInt8 ∉ ' '.toUInt8 :: t := by
        intro hm
        rcases List.mem_cons.mp hm with heq | hm
        · exact absurd heq (by decide)
        · exact hall t (List.mem_cons_self ..) hm
      have hcons : (t :: rest).flatMap (fun t => lit "; " ++ t)
          = ';'.toUInt8 :: ((' '.toUInt8 :: t) ++ rest.flatMap (fun t => lit "; " ++ t)) :=
        rfl
      rw [hcons, List.splitOn_append_cons_self_of_not_mem hfirst,
        ih ht (fun t' ht' => hall t' (List.mem_cons_of_mem _ ht'))]
      rfl

/-- The pairs of a text: the first one, and those of its attributes. -/
theorem writtenPairs_append {first s : Bytes} {ps : List (Bytes × Bytes)}
    (hfirst : ';'.toUInt8 ∉ first) (hs : Attributes s ps) :
    writtenPairs (first ++ s) = cutPair first :: ps := by
  obtain ⟨texts, rfl, hsemi, rfl⟩ := hs
  rw [writtenPairs, splitOn_attributes texts hfirst hsemi]
  simp only [List.map_map, List.cons.injEq, true_and]
  exact List.map_congr_left fun t _ => rfl

/-- A text in quotes, or without any. -/
theorem unquote_quoted {q field : Bytes} (hq : q = [] ∨ q = lit "\"")
    (h : quote ∉ field) : unquote (q ++ field ++ q) = field := by
  rcases hq with rfl | rfl
  · rw [List.nil_append, List.append_nil, unquote, if_neg]
    intro hhead
    exact h (List.mem_of_mem_head? hhead)
  · have hquote : lit "\"" = [quote] := by decide
    have hhead : ([quote] ++ field ++ [quote]).head? = some quote := rfl
    rw [unquote, hquote, if_pos hhead]
    exact List.dropLast_concat

/-- A field that is written between its label and a closing text. -/
theorem cutPair_field {key q field : Bytes} (hq : q = [] ∨ q = lit "\"")
    (hkey : '='.toUInt8 ∉ key) (hfield : quote ∉ field) :
    cutPair (key ++ lit "=" ++ q ++ field ++ q) = (key, field) := by
  have hcons : key ++ lit "=" ++ q ++ field ++ q
      = key ++ '='.toUInt8 :: (q ++ field ++ q) := by
    simp [lit]
  obtain ⟨hbefore, hafter⟩ := cut_append (q ++ field ++ q) hkey
  rw [cutPair, hcons, hbefore, hafter, unquote_quoted hq hfield]

/-! ## What the writer writes -/

/-- The pair of an attribute that is written unless its field is empty. -/
def ifSetPair (key field : Bytes) : List (Bytes × Bytes) :=
  if field = [] then [] else [(key, field)]

namespace CookieImpl

/-- The pairs of `flagsText`. -/
def flagPairs (c : CookieImpl) : List (Bytes × Bytes) :=
  (match c.sameSite with
    | .none => [(lit "SameSite", lit "None")]
    | .lax => [(lit "SameSite", lit "Lax")]
    | .strict => [(lit "SameSite", lit "Strict")]
    | .notSpecified => [])
    ++ (if c.secure then [(lit "secure", [])] else [])
    ++ (if c.httpOnly then [(lit "HttpOnly", [])] else [])

/-- The attributes that are written, without the age. -/
def attributePairs (c : CookieImpl) : List (Bytes × Bytes) :=
  if c.version = 0 then
    ifSetPair (lit "domain") c.domain ++ ifSetPair (lit "path") c.path
      ++ ifSetPair (lit "Priority") c.priority ++ c.flagPairs
  else
    ifSetPair (lit "Comment") c.comment ++ ifSetPair (lit "Domain") c.domain
      ++ ifSetPair (lit "Path") c.path ++ ifSetPair (lit "Priority") c.priority
      ++ c.flagPairs ++ [(lit "Version", lit "1")]

end CookieImpl

/-- An attribute that is written is read as its key and its value. -/
theorem attributes_ifSet {label key field q : Bytes} (hq : q = [] ∨ q = lit "\"")
    (hlabel : label = lit "; " ++ (key ++ lit "=" ++ q))
    (hkey : '='.toUInt8 ∉ key ∧ ';'.toUInt8 ∉ key)
    (hfield : quote ∉ field ∧ ';'.toUInt8 ∉ field) :
    Attributes (ifSet label field q) (ifSetPair key field) := by
  rw [ifSet, ifSetPair]
  by_cases hnil : field = []
  · rw [if_pos hnil, if_pos hnil]
    exact Attributes.nil
  · have hsemi : ';'.toUInt8 ∉ key ++ lit "=" ++ q ++ field ++ q := by
      have hlit : ';'.toUInt8 ∉ lit "=" := by decide
      have hqs : ';'.toUInt8 ∉ q := by
        rcases hq with rfl | rfl <;> decide
      simp [hkey.2, hfield.2, hlit, hqs]
    have hone := Attributes.one hsemi
    rw [cutPair_field hq hkey.1 hfield.1] at hone
    rw [if_neg hnil, if_neg hnil, hlabel]
    simpa only [List.append_assoc] using hone

/-- An attribute that is one fixed text. -/
theorem attributes_fixed {label key value : Bytes}
    (hlabel : ∃ t, label = lit "; " ++ t ∧ ';'.toUInt8 ∉ t ∧ cutPair t = (key, value)) :
    Attributes label [(key, value)] := by
  obtain ⟨t, rfl, hsemi, hcut⟩ := hlabel
  rw [← hcut]
  exact Attributes.one hsemi

/-- So are the flags. -/
theorem attributes_flags (c : CookieImpl) : Attributes c.flagsText c.flagPairs := by
  refine Attributes.append (Attributes.append ?_ ?_) ?_
  · rw [CookieImpl.sameSiteText]
    cases c.sameSite with
    | notSpecified => exact Attributes.nil
    | none => exact attributes_fixed ⟨lit "SameSite=None", by decide +kernel⟩
    | lax => exact attributes_fixed ⟨lit "SameSite=Lax", by decide +kernel⟩
    | strict => exact attributes_fixed ⟨lit "SameSite=Strict", by decide +kernel⟩
  · cases c.secure with
    | false => exact Attributes.nil
    | true => exact attributes_fixed ⟨lit "secure", by decide +kernel⟩
  · cases c.httpOnly with
    | false => exact Attributes.nil
    | true => exact attributes_fixed ⟨lit "HttpOnly", by decide +kernel⟩

/-- No number has a semicolon in it. -/
theorem not_mem_intText (n : Int) : ';'.toUInt8 ∉ intText n := by
  have hdigits : ';'.toUInt8 ∉ decimal n.natAbs :=
    not_mem_decimal (Or.inr (by decide)) _
  have hne : (';'.toUInt8 : UInt8) ≠ '-'.toUInt8 := by decide
  rw [intText]
  split
  · simp [hdigits, hne]
  · exact hdigits

/-- A plain text has none of the separators. -/
theorem not_mem_of_plain {s : Bytes} (h : plain s = true) :
    ';'.toUInt8 ∉ s ∧ quote ∉ s ∧ '='.toUInt8 ∉ s := by
  have hall : ∀ c ∈ lit ";\"=", c ∉ s := by
    intro c hc hm
    have hs := List.all_eq_true.mp h c hm
    rw [Bool.not_eq_true', List.contains_eq_mem, decide_eq_false_iff_not] at hs
    exact hs hc
  exact ⟨hall _ (by decide), hall _ (by decide), hall _ (by decide)⟩

/-- The text is a run of attributes that are cut into the given pairs, when those
    that carry the age are left out. -/
def Writes (s : Bytes) (ps : List (Bytes × Bytes)) : Prop :=
  ∃ all, Attributes s all ∧ all.filter (fun p => !isExpiry p.1) = ps

theorem Writes.append {s s' : Bytes} {ps ps' : List (Bytes × Bytes)}
    (h : Writes s ps) (h' : Writes s' ps') : Writes (s ++ s') (ps ++ ps') := by
  obtain ⟨all, hs, rfl⟩ := h
  obtain ⟨all', hs', rfl⟩ := h'
  exact ⟨all ++ all', hs.append hs', List.filter_append ..⟩

/-- An attribute writes one pair, or nothing. -/
theorem writes_ifSet {label key field q : Bytes} (hq : q = [] ∨ q = lit "\"")
    (hfield : plain field = true)
    (hlabel : label = lit "; " ++ (key ++ lit "=" ++ q) ∧ '='.toUInt8 ∉ key
      ∧ ';'.toUInt8 ∉ key ∧ isExpiry key = false) :
    Writes (ifSet label field q) (ifSetPair key field) := by
  obtain ⟨hlabel, hequals, hsemi, hage⟩ := hlabel
  obtain ⟨hfieldSemi, hfieldQuote, -⟩ := not_mem_of_plain hfield
  refine ⟨_, attributes_ifSet hq hlabel ⟨hequals, hsemi⟩ ⟨hfieldQuote, hfieldSemi⟩, ?_⟩
  rw [ifSetPair]
  split
  · rfl
  · simp [hage]

/-- The flags write their pairs. -/
theorem writes_flags (c : CookieImpl) : Writes c.flagsText c.flagPairs := by
  refine ⟨_, attributes_flags c, ?_⟩
  rw [CookieImpl.flagPairs]
  cases c.sameSite <;> cases c.secure <;> cases c.httpOnly <;> decide +kernel

/-- The age leaves no pair. -/
theorem writes_age {label key text : Bytes} (n : Int) (htext : ';'.toUInt8 ∉ text)
    (hlabel : label = lit "; " ++ (key ++ lit "=") ∧ '='.toUInt8 ∉ key
      ∧ ';'.toUInt8 ∉ key ∧ isExpiry key = true) :
    Writes (if n = -1 then [] else label ++ text) [] := by
  obtain ⟨rfl, hequals, hsemi, hage⟩ := hlabel
  by_cases hn : n = -1
  · rw [if_pos hn]
    exact ⟨[], Attributes.nil, rfl⟩
  · have hcons : lit "; " ++ (key ++ lit "=") ++ text
        = lit "; " ++ (key ++ '='.toUInt8 :: text) := by
      simp [lit]
    have hall : ';'.toUInt8 ∉ key ++ '='.toUInt8 :: text := by
      have hne : (';'.toUInt8 : UInt8) ≠ '='.toUInt8 := by decide
      simp [hsemi, htext, hne]
    rw [if_neg hn, hcons]
    refine ⟨_, Attributes.one hall, ?_⟩
    simp [cutPair, (cut_append text hequals).1, hage]

/-- The first text of a cookie is its name and its value. -/
theorem cutPair_first {c : CookieImpl} (hw : Writable c) {q : Bytes}
    (hq : q = [] ∨ q = lit "\"") :
    ';'.toUInt8 ∉ c.name ++ lit "=" ++ q ++ c.value ++ q
      ∧ cutPair (c.name ++ lit "=" ++ q ++ c.value ++ q) = (c.name, c.value) := by
  obtain ⟨hname, -, hnameEq⟩ := not_mem_of_plain (hw.plain c.name (by simp))
  obtain ⟨hvalue, hvalueQ, -⟩ := not_mem_of_plain (hw.plain c.value (by simp))
  have hlit : ';'.toUInt8 ∉ lit "=" := by decide
  have hqs : ';'.toUInt8 ∉ q := by
    rcases hq with rfl | rfl <;> decide
  exact ⟨by simp [hname, hvalue, hlit, hqs], cutPair_field hq hnameEq hvalueQ⟩

/-- The name of a cookie does not carry the age. -/
theorem not_isExpiry_name {c : CookieImpl} (hw : Writable c) :
    isExpiry c.name = false := by
  have hattr : ∀ key, isExpiry key = true → isAttribute key = true := by
    intro key hkey
    rw [isExpiry, Bool.or_eq_true, beq_iff_eq, beq_iff_eq] at hkey
    rcases hkey with rfl | rfl <;> decide +kernel
  by_contra hexp
  have hname := hattr c.name (by simpa using hexp)
  rw [hw.not_attribute] at hname
  cases hname

/-- The name, the value and the attributes behind them. -/
theorem writtenPairs_of_writes {c : CookieImpl} (hw : Writable c) {q rest : Bytes}
    {ps : List (Bytes × Bytes)} (hq : q = [] ∨ q = lit "\"") (hrest : Writes rest ps) :
    (writtenPairs (c.name ++ lit "=" ++ q ++ c.value ++ q ++ rest)).filter
      (fun p => !isExpiry p.1) = (c.name, c.value) :: ps := by
  obtain ⟨hsemi, hcut⟩ := cutPair_first hw hq
  obtain ⟨all, hall, rfl⟩ := hrest
  rw [writtenPairs_append hsemi hall, hcut]
  simp [not_isExpiry_name hw]

/-- The attributes of a Netscape cookie. -/
theorem writes_netscape (clock : Clock) {c : CookieImpl} (hw : Writable c) :
    Writes (ifSet (lit "; domain=") c.domain [] ++ ifSet (lit "; path=") c.path []
        ++ ifSet (lit "; Priority=") c.priority []
        ++ (if c.maxAge = -1 then [] else
          lit "; expires=" ++ clock.expiresText c.maxAge) ++ c.flagsText)
      (ifSetPair (lit "domain") c.domain ++ ifSetPair (lit "path") c.path
        ++ ifSetPair (lit "Priority") c.priority ++ c.flagPairs) := by
  have hdomain : Writes (ifSet (lit "; domain=") c.domain [])
      (ifSetPair (lit "domain") c.domain) :=
    writes_ifSet (Or.inl rfl) (hw.plain _ (by simp)) (by decide)
  have hpath : Writes (ifSet (lit "; path=") c.path []) (ifSetPair (lit "path") c.path) :=
    writes_ifSet (Or.inl rfl) (hw.plain _ (by simp)) (by decide)
  have hpriority : Writes (ifSet (lit "; Priority=") c.priority [])
      (ifSetPair (lit "Priority") c.priority) :=
    writes_ifSet (Or.inl rfl) (hw.plain _ (by simp)) (by decide)
  have hage : Writes (if c.maxAge = -1 then [] else
      lit "; expires=" ++ clock.expiresText c.maxAge) [] :=
    @writes_age _ (lit "expires") _ _ (clock.no_semicolon _) (by decide)
  have hall := (((hdomain.append hpath).append hpriority).append hage).append
    (writes_flags c)
  rw [List.append_nil] at hall
  exact hall

/-- The attributes of an RFC 2109 cookie. -/
theorem writes_rfc2109 {c : CookieImpl} (hw : Writable c) :
    Writes (ifSet (lit "; Comment=\"") c.comment (lit "\"")
        ++ ifSet (lit "; Domain=\"") c.domain (lit "\"")
        ++ ifSet (lit "; Path=\"") c.path (lit "\"")
        ++ ifSet (lit "; Priority=\"") c.priority (lit "\"")
        ++ (if c.maxAge = -1 then [] else
          lit "; Max-Age=\"" ++ intText c.maxAge ++ lit "\"")
        ++ c.flagsText ++ lit "; Version=\"1\"")
      (ifSetPair (lit "Comment") c.comment ++ ifSetPair (lit "Domain") c.domain
        ++ ifSetPair (lit "Path") c.path ++ ifSetPair (lit "Priority") c.priority
        ++ c.flagPairs ++ [(lit "Version", lit "1")]) := by
  have hcomment : Writes (ifSet (lit "; Comment=\"") c.comment (lit "\""))
      (ifSetPair (lit "Comment") c.comment) :=
    writes_ifSet (Or.inr rfl) (hw.plain _ (by simp)) (by decide)
  have hdomain : Writes (ifSet (lit "; Domain=\"") c.domain (lit "\""))
      (ifSetPair (lit "Domain") c.domain) :=
    writes_ifSet (Or.inr rfl) (hw.plain _ (by simp)) (by decide)
  have hpath : Writes (ifSet (lit "; Path=\"") c.path (lit "\""))
      (ifSetPair (lit "Path") c.path) :=
    writes_ifSet (Or.inr rfl) (hw.plain _ (by simp)) (by decide)
  have hpriority : Writes (ifSet (lit "; Priority=\"") c.priority (lit "\""))
      (ifSetPair (lit "Priority") c.priority) :=
    writes_ifSet (Or.inr rfl) (hw.plain _ (by simp)) (by decide)
  have hage : Writes (if c.maxAge = -1 then [] else
      lit "; Max-Age=\"" ++ intText c.maxAge ++ lit "\"") [] := by
    have htext : ';'.toUInt8 ∉ lit "\"" ++ intText c.maxAge ++ lit "\"" := by
      have hq : ';'.toUInt8 ∉ lit "\"" := by decide
      simp [not_mem_intText, hq]
    have hlabel : lit "; Max-Age=\"" ++ intText c.maxAge ++ lit "\""
        = lit "; Max-Age=" ++ (lit "\"" ++ intText c.maxAge ++ lit "\"") := by
      simp [lit]
    rw [hlabel]
    exact @writes_age _ (lit "Max-Age") _ _ htext (by decide)
  have hversion : Writes (lit "; Version=\"1\"") [(lit "Version", lit "1")] :=
    ⟨[(lit "Version", lit "1")],
      attributes_fixed ⟨lit "Version=\"1\"", by decide +kernel⟩, by decide⟩
  have hall := (((((hcomment.append hdomain).append hpath).append hpriority).append
    hage).append (writes_flags c)).append hversion
  rw [List.append_nil] at hall
  exact hall

/-- **THE WRITER**: the text of a cookie, cut into pairs and without the age, is
    its name and value and its attributes. -/
theorem writtenPairs_toString (clock : Clock) {c : CookieImpl} (hw : Writable c) :
    (writtenPairs (c.toString clock)).filter (fun p => !isExpiry p.1)
      = (c.name, c.value) :: c.attributePairs := by
  rw [CookieImpl.toString, CookieImpl.attributePairs]
  by_cases hv : c.version = 0
  · have hpairs := writtenPairs_of_writes hw (Or.inl rfl) (writes_netscape clock hw)
    rw [List.append_nil, List.append_nil] at hpairs
    rw [if_pos hv, if_pos hv, ← hpairs]
    simp only [List.append_assoc]
  · rw [if_neg hv, if_neg hv, ← writtenPairs_of_writes hw (Or.inr rfl) (writes_rfc2109 hw)]
    simp only [List.append_assoc]

/-! ## The reader, field by field -/

/-- The keys the reader knows. -/
def readerNames : List Bytes :=
  [lit "comment", lit "domain", lit "path", lit "priority", lit "max-age",
    lit "secure", lit "expires", lit "SameSite", lit "version", lit "HttpOnly"]

/-- What a pair with the key `key` leaves alone. -/
structure Frame (key : Bytes) (c c' : CookieImpl) : Prop where
  domain : key ≠ lit "domain" → c'.domain = c.domain := by intros; rfl
  path : key ≠ lit "path" → c'.path = c.path := by intros; rfl
  priority : key ≠ lit "priority" → c'.priority = c.priority := by intros; rfl
  secure : key ≠ lit "secure" → c'.secure = c.secure := by intros; rfl
  sameSite : key ≠ lit "SameSite" → c'.sameSite = c.sameSite := by intros; rfl
  version : key ≠ lit "version" → c'.version = c.version := by intros; rfl
  httpOnly : key ≠ lit "HttpOnly" → c'.httpOnly = c.httpOnly := by intros; rfl
  maxAge : key ≠ lit "max-age" → key ≠ lit "expires" → c'.maxAge = c.maxAge := by
    intros; rfl
  name : key ∈ readerNames → (c'.name, c'.value) = (c.name, c.value) := by intros; rfl

/-- **ONE PAIR**: it writes the field of its key, or the name and the value when
    the reader does not know the key. -/
theorem readPair_frame {clock : Clock} {c c' : CookieImpl} {p : Bytes × Bytes}
    (h : readPair clock c p = some c') : Frame p.1 c c' := by
  obtain ⟨name, value⟩ := p
  simp only [readPair] at h
  by_cases h1 : name = lit "comment"
  · rw [if_pos h1] at h
    rw [← Option.some.inj h]
    exact {}
  rw [if_neg h1] at h
  by_cases h2 : name = lit "domain"
  · rw [if_pos h2] at h
    rw [← Option.some.inj h]
    exact { domain := fun hne => absurd h2 hne }
  rw [if_neg h2] at h
  by_cases h3 : name = lit "path"
  · rw [if_pos h3] at h
    rw [← Option.some.inj h]
    exact { path := fun hne => absurd h3 hne }
  rw [if_neg h3] at h
  by_cases h4 : name = lit "priority"
  · rw [if_pos h4] at h
    rw [← Option.some.inj h]
    exact { priority := fun hne => absurd h4 hne }
  rw [if_neg h4] at h
  by_cases h5 : name = lit "max-age"
  · rw [if_pos h5] at h
    obtain ⟨n, -, rfl⟩ := Option.map_eq_some_iff.mp h
    exact { maxAge := fun hne => absurd h5 hne }
  rw [if_neg h5] at h
  by_cases h6 : name = lit "secure"
  · rw [if_pos h6] at h
    rw [← Option.some.inj h]
    exact { secure := fun hne => absurd h6 hne }
  rw [if_neg h6] at h
  by_cases h7 : name = lit "expires"
  · rw [if_pos h7] at h
    rw [← Option.some.inj h]
    exact { maxAge := fun _ hne => absurd h7 hne }
  rw [if_neg h7] at h
  by_cases h8 : name = lit "SameSite"
  · -- all four branches set the same field, or none
    rw [if_pos h8] at h
    have hsite : ∃ site, c' = { c with sameSite := site } := by
      split_ifs at h <;> exact ⟨_, (Option.some.inj h).symm⟩
    obtain ⟨site, rfl⟩ := hsite
    exact { sameSite := fun hne => absurd h8 hne }
  rw [if_neg h8] at h
  by_cases h9 : name = lit "version"
  · rw [if_pos h9] at h
    obtain ⟨n, -, rfl⟩ := Option.map_eq_some_iff.mp h
    exact { version := fun hne => absurd h9 hne }
  rw [if_neg h9] at h
  by_cases h10 : name = lit "HttpOnly"
  · rw [if_pos h10] at h
    rw [← Option.some.inj h]
    exact { httpOnly := fun hne => absurd h10 hne }
  rw [if_neg h10] at h
  rw [← Option.some.inj h]
  refine { name := fun hmem => ?_ }
  simp [readerNames, h1, h2, h3, h4, h5, h6, h7, h8, h9, h10] at hmem

/-- The reader over sorted pairs: a field that only the key `key` writes is
    written from the value stored under it. -/
theorem readPairs_field {β : Type} {clock : Clock} (f : CookieImpl → β) (key : Bytes)
    (g : Bytes → β → β)
    (hset : ∀ c v c', readPair clock c (key, v) = some c' → f c' = g v (f c)) :
    ∀ (l : List (Bytes × Bytes)) {c r : CookieImpl}, OrdMap.SortedL l →
      (∀ p ∈ l, p.1 ≠ key → ∀ c c', readPair clock c p = some c' → f c' = f c) →
      readPairs clock l c = some r →
      f r = (OrdMap.findL key l).elim (f c) (fun v => g v (f c)) := by
  intro l
  induction l with
  | nil =>
      intro c r _ _ h
      rw [← Option.some.inj h]
      rfl
  | cons p rest ih =>
      intro c r hs hframe h
      obtain ⟨hlt, hrest⟩ := List.pairwise_cons.mp hs
      have hframe' := fun q hq => hframe q (List.mem_cons_of_mem p hq)
      rw [readPairs] at h
      cases hp : readPair clock c p with
      | none =>
          rw [hp] at h
          cases h
      | some c₁ =>
          rw [hp] at h
          have hr := ih hrest hframe' h
          obtain ⟨key', v⟩ := p
          rw [OrdMap.findL_cons]
          by_cases hkey : key = key'
          · -- no later pair has the key
            subst hkey
            have hnone : OrdMap.findL key rest = none :=
              OrdMap.findL_eq_none (fun e he => ne_of_lt (hlt e he))
            rw [hnone] at hr
            rw [if_pos rfl, hr]
            exact hset c v c₁ hp
          · have hkeep := hframe (key', v) (List.mem_cons_self ..) (Ne.symm hkey) c c₁ hp
            rw [if_neg hkey, hr, hkeep]

theorem ite_isSome {P : Prop} [Decidable P] {a b : Option CookieImpl}
    (ha : ∃ c, a = some c) (hb : ∃ c, b = some c) : ∃ c, (if P then a else b) = some c := by
  split
  · exact ha
  · exact hb

/-- The reader raises only on a number. -/
theorem readPair_isSome (clock : Clock) (c : CookieImpl) {p : Bytes × Bytes}
    (hage : p.1 ≠ lit "max-age") (hversion : p.1 ≠ lit "version") :
    ∃ c', readPair clock c p = some c' := by
  obtain ⟨name, value⟩ := p
  rw [readPair, if_neg hage, if_neg hversion]
  refine ite_isSome ⟨_, rfl⟩ (ite_isSome ⟨_, rfl⟩ (ite_isSome ⟨_, rfl⟩
    (ite_isSome ⟨_, rfl⟩ (ite_isSome ⟨_, rfl⟩ (ite_isSome ⟨_, rfl⟩ (ite_isSome ?_ ?_))))))
  · -- SameSite: three values are known
    exact ite_isSome ⟨_, rfl⟩ (ite_isSome ⟨_, rfl⟩ (ite_isSome ⟨_, rfl⟩ ⟨_, rfl⟩))
  · exact ite_isSome ⟨_, rfl⟩ ⟨_, rfl⟩

/-- Without a number to read no pair makes the reader throw. -/
theorem readPairs_isSome {clock : Clock} :
    ∀ (l : List (Bytes × Bytes)) (c : CookieImpl),
      (∀ p ∈ l, p.1 ≠ lit "max-age" ∧ p.1 ≠ lit "version") →
      ∃ r, readPairs clock l c = some r := by
  intro l
  induction l with
  | nil => exact fun c _ => ⟨c, rfl⟩
  | cons p rest ih =>
      intro c hkeys
      obtain ⟨hage, hversion⟩ := hkeys p (List.mem_cons_self ..)
      obtain ⟨c₁, hc₁⟩ := readPair_isSome clock c hage hversion
      rw [readPairs, hc₁]
      exact ih c₁ (fun q hq => hkeys q (List.mem_cons_of_mem _ hq))

/-! ## Written and read back -/

/-- A map that was read back has the pairs that were written. -/
theorem find_pairMap (clock : Clock) {c : CookieImpl} (hw : Writable c) (k : Bytes) :
    OrdMap.findL k (pairMap clock c).entries
      = OrdMap.findL k ((c.name, c.value) :: c.attributePairs) := by
  have hfind := OrdMap.find_insertAll k ((c.name, c.value) :: c.attributePairs) OrdMap.empty
  rw [OrdMap.find_empty, Option.none_or] at hfind
  rw [pairMap, writtenPairs_toString clock hw]
  exact hfind

theorem mem_pairMap {clock : Clock} {c : CookieImpl} (hw : Writable c)
    {p : Bytes × Bytes} (hp : p ∈ (pairMap clock c).entries) :
    p ∈ (c.name, c.value) :: c.attributePairs := by
  have hfind := OrdMap.findL_of_mem (pairMap clock c).sorted hp
  rw [find_pairMap clock hw] at hfind
  exact OrdMap.mem_of_findL hfind

theorem findL_ifSetPair (k key field : Bytes) :
    OrdMap.findL k (ifSetPair key field)
      = if k = key ∧ field ≠ [] then some field else none := by
  rw [ifSetPair]
  by_cases hnil : field = []
  · rw [if_pos hnil, if_neg (fun h => h.2 hnil)]
    rfl
  · rw [if_neg hnil, OrdMap.findL_cons]
    by_cases hk : k = key
    · rw [if_pos hk, if_pos ⟨hk, hnil⟩]
    · rw [if_neg hk, if_neg (fun h => hk h.1)]
      rfl

theorem mem_ifSetPair {key field : Bytes} {p : Bytes × Bytes}
    (h : p ∈ ifSetPair key field) : p.1 = key ∧ field ≠ [] := by
  rw [ifSetPair] at h
  split at h
  · cases h
  · next hne =>
      rw [List.mem_singleton.mp h]
      exact ⟨rfl, hne⟩

theorem mem_flagPairs (c : CookieImpl) :
    ∀ p ∈ c.flagPairs, p.1 ∈ [lit "SameSite", lit "secure", lit "HttpOnly"] := by
  rw [CookieImpl.flagPairs]
  cases c.sameSite <;> cases c.secure <;> cases c.httpOnly <;> decide +kernel

/-- The spelling of the writer, in either version. -/
def writerNames : List Bytes :=
  [lit "domain", lit "path", lit "Priority", lit "Comment", lit "Domain", lit "Path",
    lit "Version", lit "SameSite", lit "secure", lit "HttpOnly"]

/-- Every key that is written is one of the names of the writer. -/
theorem mem_attributePairs {c : CookieImpl} {p : Bytes × Bytes}
    (hp : p ∈ c.attributePairs) : p.1 ∈ writerNames := by
  have hflags : ∀ k ∈ [lit "SameSite", lit "secure", lit "HttpOnly"], k ∈ writerNames := by
    decide +kernel
  rw [CookieImpl.attributePairs] at hp
  split at hp
  · simp only [List.mem_append] at hp
    rcases hp with ((h | h) | h) | h
    · rw [(mem_ifSetPair h).1]
      decide
    · rw [(mem_ifSetPair h).1]
      decide
    · rw [(mem_ifSetPair h).1]
      decide
    · exact hflags _ (mem_flagPairs c p h)
  · simp only [List.mem_append] at hp
    rcases hp with ((((h | h) | h) | h) | h) | h
    · rw [(mem_ifSetPair h).1]
      decide
    · rw [(mem_ifSetPair h).1]
      decide
    · rw [(mem_ifSetPair h).1]
      decide
    · rw [(mem_ifSetPair h).1]
      decide
    · exact hflags _ (mem_flagPairs c p h)
    · rw [List.mem_singleton.mp h]
      decide

/-- A writable cookie is not named like an attribute. -/
theorem ne_name {c : CookieImpl} (hw : Writable c) {k : Bytes}
    (hk : isAttribute k = true) : k ≠ c.name := by
  rintro rfl
  rw [hw.not_attribute] at hk
  cases hk

/-- The reader finds no version and no priority: the writer spells them with a
    capital. -/
theorem find_capital (clock : Clock) {c : CookieImpl} (hw : Writable c) {k : Bytes}
    (hattr : isAttribute k = true) (hk : k ∉ writerNames) :
    OrdMap.findL k (pairMap clock c).entries = none := by
  rw [find_pairMap clock hw, OrdMap.findL_cons, if_neg (ne_name hw hattr)]
  refine OrdMap.findL_eq_none ?_
  rintro e he rfl
  exact hk (mem_attributePairs he)

/-- A field of the cookie that is read, from the pairs that were written. -/
theorem ofMap_field {β : Type} {clock : Clock} {c r : CookieImpl} (hw : Writable c)
    (f : CookieImpl → β) (key : Bytes) (g : Bytes → β → β)
    (hset : ∀ c v c', readPair clock c (key, v) = some c' → f c' = g v (f c))
    (hframe : ∀ p ∈ (c.name, c.value) :: c.attributePairs, p.1 ≠ key →
      ∀ c c', readPair clock c p = some c' → f c' = f c)
    (hr : CookieImpl.ofMap clock (pairMap clock c) = some r) :
    f r = (OrdMap.findL key ((c.name, c.value) :: c.attributePairs)).elim (f {})
      (fun v => g v (f {})) := by
  rw [← find_pairMap clock hw]
  exact readPairs_field f key g hset _ (pairMap clock c).sorted
    (fun p hp => hframe p (mem_pairMap hw hp)) hr

/-- Version 1 loses its version, and every version loses its priority. -/
theorem ofMap_capital {clock : Clock} {c r : CookieImpl} (hw : Writable c)
    (hr : CookieImpl.ofMap clock (pairMap clock c) = some r) :
    r.version = 0 ∧ r.priority = [] := by
  have hs := (pairMap clock c).sorted
  constructor
  · have hversion := readPairs_field CookieImpl.version (lit "version")
      (fun v n => ((stoi v).getD n)) ?_ _ hs
      (fun p _ hne c c' h => (readPair_frame h).version hne) hr
    · rw [hversion, find_capital clock hw (by decide +kernel) (by decide +kernel)]
      rfl
    · intro c v c' h
      have hmap : (stoi v).map (fun n => { c with version := n }) = some c' := h
      obtain ⟨n, hn, rfl⟩ := Option.map_eq_some_iff.mp hmap
      rw [hn]
      rfl
  · have hpriority := readPairs_field CookieImpl.priority (lit "priority")
      (fun v _ => v) (fun c v c' h => by rw [← Option.some.inj h]) _ hs
      (fun p _ hne c c' h => (readPair_frame h).priority hne) hr
    rw [hpriority, find_capital clock hw (by decide +kernel) (by decide +kernel)]
    rfl

/-- A key that is no attribute name is the name of the cookie. -/
theorem readPair_name {clock : Clock} {c : CookieImpl} {name value : Bytes}
    (h : isAttribute name = false) :
    readPair clock c (name, value) = some { c with name := name, value := value } := by
  have hne : ∀ k, isAttribute k = true → name ≠ k := by
    rintro k hk rfl
    rw [h] at hk
    cases hk
  simp only [readPair]
  rw [if_neg (hne _ (by decide +kernel)), if_neg (hne _ (by decide +kernel)),
    if_neg (hne _ (by decide +kernel)), if_neg (hne _ (by decide +kernel)),
    if_neg (hne _ (by decide +kernel)), if_neg (hne _ (by decide +kernel)),
    if_neg (hne _ (by decide +kernel)), if_neg (hne _ (by decide +kernel)),
    if_neg (hne _ (by decide +kernel)), if_neg (hne _ (by decide +kernel))]

/-- The value a site attribute is read as. -/
def siteOf (v : Bytes) (old : SameSite) : SameSite :=
  if v = lit "None" then .none
  else if v = lit "Lax" then .lax
  else if v = lit "Strict" then .strict
  else old

/-- The flags, looked up one by one. -/
theorem findL_flagPairs (c : CookieImpl) :
    (OrdMap.findL (lit "SameSite") c.flagPairs).elim .notSpecified
        (fun v => siteOf v .notSpecified) = c.sameSite
      ∧ (OrdMap.findL (lit "secure") c.flagPairs).elim false (fun _ => true) = c.secure
      ∧ (OrdMap.findL (lit "HttpOnly") c.flagPairs).elim false (fun _ => true)
        = c.httpOnly
      ∧ OrdMap.findL (lit "domain") c.flagPairs = none
      ∧ OrdMap.findL (lit "path") c.flagPairs = none := by
  rw [CookieImpl.flagPairs]
  cases c.sameSite <;> cases c.secure <;> cases c.httpOnly <;> decide +kernel

/-! ## Netscape cookies without a priority -/

section Netscape

variable {clock : Clock} {c r : CookieImpl}

/-- What a version 0 cookie without a priority writes. -/
theorem attributePairs_netscape (hv : c.version = 0) (hp : c.priority = []) :
    c.attributePairs = ifSetPair (lit "domain") c.domain
      ++ ifSetPair (lit "path") c.path ++ c.flagPairs := by
  rw [CookieImpl.attributePairs, if_pos hv, hp]
  simp [ifSetPair]

/-- Every attribute is spelled as the reader knows it. -/
theorem known_netscape (hv : c.version = 0) (hp : c.priority = []) :
    ∀ p ∈ c.attributePairs, p.1 ∈ readerNames := by
  intro p hmem
  have hflags : ∀ k ∈ [lit "SameSite", lit "secure", lit "HttpOnly"],
      k ∈ readerNames := by decide +kernel
  rw [attributePairs_netscape hv hp, List.mem_append, List.mem_append] at hmem
  rcases hmem with (h | h) | h
  · rw [(mem_ifSetPair h).1]
    decide
  · rw [(mem_ifSetPair h).1]
    decide
  · exact hflags _ (mem_flagPairs c p h)

/-- The reader accepts what the writer writes. -/
theorem ofMap_isSome (clock : Clock) (hw : Writable c) :
    ∃ r, CookieImpl.ofMap clock (pairMap clock c) = some r := by
  refine readPairs_isSome _ _ ?_
  intro p hmem
  rcases List.mem_cons.mp (mem_pairMap hw hmem) with rfl | hattr
  · exact ⟨(ne_name hw (by decide +kernel)).symm, (ne_name hw (by decide +kernel)).symm⟩
  · have hnot : lit "max-age" ∉ writerNames ∧ lit "version" ∉ writerNames := by
      decide +kernel
    exact ⟨fun h => hnot.1 (h ▸ mem_attributePairs hattr),
      fun h => hnot.2 (h ▸ mem_attributePairs hattr)⟩

theorem findL_netscape (hw : Writable c) (hv : c.version = 0) (hp : c.priority = [])
    {k : Bytes} (hk : isAttribute k = true) :
    OrdMap.findL k ((c.name, c.value) :: c.attributePairs)
      = ((if k = lit "domain" ∧ c.domain ≠ [] then some c.domain else none).or
        (if k = lit "path" ∧ c.path ≠ [] then some c.path else none)).or
        (OrdMap.findL k c.flagPairs) := by
  rw [OrdMap.findL_cons, if_neg (ne_name hw hk), attributePairs_netscape hv hp,
    OrdMap.findL_append, OrdMap.findL_append, findL_ifSetPair, findL_ifSetPair]

/-- The flags are in neither of the two fields. -/
theorem findL_netscape_flag (hw : Writable c) (hv : c.version = 0) (hp : c.priority = [])
    {k : Bytes} (hk : k ∈ [lit "SameSite", lit "secure", lit "HttpOnly"]) :
    OrdMap.findL k ((c.name, c.value) :: c.attributePairs)
      = OrdMap.findL k c.flagPairs := by
  have hkey : ∀ k ∈ [lit "SameSite", lit "secure", lit "HttpOnly"],
      isAttribute k = true ∧ k ≠ lit "domain" ∧ k ≠ lit "path" := by decide +kernel
  obtain ⟨hattr, hkd, hkp⟩ := hkey k hk
  rw [findL_netscape hw hv hp hattr, if_neg (fun h => hkd h.1), if_neg (fun h => hkp h.1)]
  rfl

/-- The name and the value of a version 0 cookie come back. -/
theorem netscape_name (hw : Writable c) (hv : c.version = 0) (hp : c.priority = [])
    (hr : CookieImpl.ofMap clock (pairMap clock c) = some r) :
    (r.name, r.value) = (c.name, c.value) := by
  refine (ofMap_field hw (fun c => (c.name, c.value)) c.name (fun v _ => (c.name, v))
    ?_ ?_ hr).trans ?_
  · intro c₁ v c₂ h
    rw [readPair_name hw.not_attribute] at h
    rw [← Option.some.inj h]
  · intro p hmem hkey c₁ c₂ h
    rcases List.mem_cons.mp hmem with rfl | hattr
    · exact absurd rfl hkey
    · exact (readPair_frame h).name (known_netscape hv hp p hattr)
  · rw [OrdMap.findL_cons, if_pos rfl]
    rfl

/-- Its domain comes back. -/
theorem netscape_domain (hw : Writable c) (hv : c.version = 0) (hp : c.priority = [])
    (hr : CookieImpl.ofMap clock (pairMap clock c) = some r) : r.domain = c.domain := by
  refine (ofMap_field hw CookieImpl.domain (lit "domain") (fun v _ => v)
    (fun c₁ v c₂ h => by rw [← Option.some.inj h])
    (fun p _ hkey c₁ c₂ h => (readPair_frame h).domain hkey) hr).trans ?_
  have hne : lit "domain" ≠ lit "path" := by decide
  obtain ⟨-, -, -, hflags, -⟩ := findL_flagPairs c
  rw [findL_netscape hw hv hp (by decide +kernel), hflags,
    if_neg (fun h : lit "domain" = lit "path" ∧ _ => hne h.1)]
  by_cases hnil : c.domain = []
  · simp [hnil]
  · simp [hnil]

/-- Its path comes back. -/
theorem netscape_path (hw : Writable c) (hv : c.version = 0) (hp : c.priority = [])
    (hr : CookieImpl.ofMap clock (pairMap clock c) = some r) : r.path = c.path := by
  refine (ofMap_field hw CookieImpl.path (lit "path") (fun v _ => v)
    (fun c₁ v c₂ h => by rw [← Option.some.inj h])
    (fun p _ hkey c₁ c₂ h => (readPair_frame h).path hkey) hr).trans ?_
  have hne : lit "path" ≠ lit "domain" := by decide
  obtain ⟨-, -, -, -, hflags⟩ := findL_flagPairs c
  rw [findL_netscape hw hv hp (by decide +kernel), hflags,
    if_neg (fun h : lit "path" = lit "domain" ∧ _ => hne h.1)]
  by_cases hnil : c.path = []
  · simp [hnil]
  · simp [hnil]

/-- Its flags come back. -/
theorem netscape_flags (hw : Writable c) (hv : c.version = 0) (hp : c.priority = [])
    (hr : CookieImpl.ofMap clock (pairMap clock c) = some r) :
    r.sameSite = c.sameSite ∧ r.secure = c.secure ∧ r.httpOnly = c.httpOnly := by
  obtain ⟨hsite, hsecure, hhttp, -, -⟩ := findL_flagPairs c
  refine ⟨?_, ?_, ?_⟩
  · refine (ofMap_field hw CookieImpl.sameSite (lit "SameSite") siteOf ?_
      (fun p _ hkey c₁ c₂ h => (readPair_frame h).sameSite hkey) hr).trans ?_
    · intro c₁ v c₂ h
      have hread : readPair clock c₁ (lit "SameSite", v)
          = some { c₁ with sameSite := siteOf v c₁.sameSite } := by
        show (if v = lit "None" then _ else _) = _
        rw [siteOf]
        split_ifs <;> rfl
      rw [hread] at h
      rw [← Option.some.inj h]
    · rw [findL_netscape_flag hw hv hp (by decide)]
      exact hsite
  · refine (ofMap_field hw CookieImpl.secure (lit "secure") (fun _ _ => true)
      (fun c₁ v c₂ h => by rw [← Option.some.inj h])
      (fun p _ hkey c₁ c₂ h => (readPair_frame h).secure hkey) hr).trans ?_
    rw [findL_netscape_flag hw hv hp (by decide)]
    exact hsecure
  · refine (ofMap_field hw CookieImpl.httpOnly (lit "HttpOnly") (fun _ _ => true)
      (fun c₁ v c₂ h => by rw [← Option.some.inj h])
      (fun p _ hkey c₁ c₂ h => (readPair_frame h).httpOnly hkey) hr).trans ?_
    rw [findL_netscape_flag hw hv hp (by decide)]
    exact hhttp

/-- A Netscape cookie without priority is read back whole. -/
theorem readBack_netscape (hw : Writable c) (hv : c.version = 0) (hp : c.priority = []) :
    ∃ r, CookieImpl.ofMap clock (pairMap clock c) = some r ∧ SameCookie c r := by
  obtain ⟨r, hr⟩ := ofMap_isSome clock hw
  obtain ⟨hname, hvalue⟩ := Prod.mk.inj (netscape_name hw hv hp hr)
  obtain ⟨hsite, hsecure, hhttp⟩ := netscape_flags hw hv hp hr
  refine ⟨r, hr, ?_⟩
  constructor
  · exact hname
  · exact hvalue
  · exact netscape_domain hw hv hp hr
  · exact netscape_path hw hv hp hr
  · exact (ofMap_capital hw hr).2.trans hp.symm
  · exact hsite
  · exact hsecure
  · exact hhttp
  · intro hone
    rw [hv] at hone
    cases hone

end Netscape

/-- **HEADLINE**: the reader, given the pairs that the writer writes, returns the
    cookie exactly when it is a Netscape cookie without a priority. -/
theorem readBack_iff (clock : Clock) (c : CookieImpl) (hw : Writable c) :
    (∃ r, CookieImpl.ofMap clock (pairMap clock c) = some r ∧ SameCookie c r)
      ↔ c.version = 0 ∧ c.priority = [] := by
  constructor
  · rintro ⟨r, hr, hsame⟩
    obtain ⟨hversion, hpriority⟩ := ofMap_capital hw hr
    refine ⟨?_, hsame.priority.symm.trans hpriority⟩
    rcases hw.version with h0 | h1
    · exact h0
    · have h := (hsame.rfc2109 h1).2
      rw [hversion, h1] at h
      cases h
  · rintro ⟨hv, hp⟩
    exact readBack_netscape hw hv hp

/-- A clock that stands still. -/
def epoch : Clock where
  expiresText := fun _ => lit "Thu, 01-Jan-1970 00:00:00 UTC"
  secondsUntil := fun _ => 0
  no_semicolon := fun _ => by decide +kernel

/-- A session cookie with a path. -/
theorem readBack_session :
    ∃ r, CookieImpl.ofMap epoch (pairMap epoch
        { name := lit "sid", value := lit "1", path := lit "/", secure := true }) = some r
      ∧ SameCookie { name := lit "sid", value := lit "1", path := lit "/", secure := true } r :=
  (readBack_iff epoch { name := lit "sid", value := lit "1", path := lit "/", secure := true }
    ⟨Or.inl rfl, by decide, by decide +kernel, by decide +kernel⟩).mpr ⟨rfl, rfl⟩

/-- A priority of version 0 does not come back, and of a cookie of version 1
    nothing does but its name. -/
theorem readBack_lossy :
    (CookieImpl.ofMap epoch (pairMap epoch { name := lit "sid", priority := lit "High" })
      = some { name := lit "sid" })
    ∧ (CookieImpl.ofMap epoch (pairMap epoch
        { version := 1, name := lit "sid", domain := lit "d", path := lit "/" })
      = some { name := lit "sid" })
    ∧ ¬ ∀ (clock : Clock) (c : CookieImpl), Writable c →
        ∃ r, CookieImpl.ofMap clock (pairMap clock c) = some r ∧ SameCookie c r := by
  have hread : CookieImpl.ofMap epoch (pairMap epoch
      { name := lit "sid", priority := lit "High" }) = some { name := lit "sid" } := by
    decide +kernel
  refine ⟨hread, by decide +kernel, ?_⟩
  intro h
  obtain ⟨r, hr, hsame⟩ := h epoch { name := lit "sid", priority := lit "High" }
    ⟨Or.inl rfl, by decide, by decide +kernel, by decide +kernel⟩
  rw [hread] at hr
  have hpriority := hsame.priority
  rw [← Option.some.inj hr] at hpriority
  exact absurd hpriority (by decide)

end HttpCookie
