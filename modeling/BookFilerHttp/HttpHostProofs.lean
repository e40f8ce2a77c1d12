import BookFilerHttp.BoostUrlAddressProofs
import BookFilerHttp.HttpReparseProofs

/-! # The Host field of a request

    `parseRequest` hands the whole Host field to `set_host`, which takes a HOST: it
    copies an address, encodes anything else as a name, and puts the bytes in front
    of the path that is already there.

    `hostText_eq_self` says what is copied.  `understood_iff` says for which valid
    fields the authority in the text of the URL is the field and `host()` its host
    part: those without a port, without lowercase digits in an IPv6 address, and in
    front of a path that starts with a slash. -/

namespace HttpHost

open ByteString BoostUrl HttpQuery HttpUrl HttpRequest HttpReparse

/-! ## Host fields -/

def isUnreserved (c : UInt8) : Bool := isAlpha c || isDigit c || (lit "-._~").contains c

/-- A host: a name of unreserved characters, an IPv4 address, or an IPv6 address in
    brackets. -/
inductive Host : Bytes → Prop where
  | name {s : Bytes} (h : ∀ c ∈ s, isUnreserved c = true) : Host s
  | ipv4 {s : Bytes} (h : IPv4Address s) : Host s
  | ipv6 {a : Bytes} (h : IPv6Address a) : Host ('['.toUInt8 :: (a ++ [']'.toUInt8]))

/-- What may follow a host: nothing, or a colon and digits. -/
def Port (s : Bytes) : Prop :=
  s = [] ∨ ∃ ds, s = ':'.toUInt8 :: ds ∧ ∀ c ∈ ds, isDigit c = true

/-- A character that ends an authority. -/
def endsAuthority (c : UInt8) : Bool := (lit "/?#").contains c

/-- The authority in the text of a URL without a scheme. -/
def authority (text : Bytes) : Bytes :=
  match matchLiteral (lit "//") text with
  | some rest => rest.takeWhile (fun c => !endsAuthority c)
  | none => []

/-- The wrapper shows the Host field and the host in it. -/
structure Understood (s : RequestImpl) (host port : Bytes) : Prop where
  authority : authority s.url = host ++ port
  host : s.host = host

/-- The condition: no port, no lowercase digit in an address in brackets, and no host
    in front of a path that does not start with a slash. -/
structure Copied (target host port : Bytes) : Prop where
  noPort : port = []
  upper : host.head? = some '['.toUInt8 → ∀ c ∈ host, NotLower c
  path : host = [] ∨ targetPath target = [] ∨ (targetPath target).head? = some '/'.toUInt8

/-! ## What is copied -/

theorem encode_cons (e : PctEncoding) (c : UInt8) (p : Bytes) :
    e.encode (c :: p) = (if e.isSpecial c then PctEncoding.escape c else [c]) ++ e.encode p := rfl

theorem length_le_encode (e : PctEncoding) (s : Bytes) : s.length ≤ (e.encode s).length := by
  induction s with
  | nil => exact le_rfl
  | cons c p ih =>
      have hchar : 1 ≤ (if e.isSpecial c then PctEncoding.escape c else [c]).length := by
        split
        · exact Nat.le_add_left 1 2
        · exact le_rfl
      rw [encode_cons, List.length_append, List.length_cons]
      omega

/-- Encoding leaves a string alone only if it has no special character. -/
theorem encode_eq_self {e : PctEncoding} {s : Bytes} :
    e.encode s = s ↔ ∀ c ∈ s, e.isSpecial c = false := by
  induction s with
  | nil => exact iff_of_true rfl (fun _ h => by cases h)
  | cons c p ih =>
      rw [encode_cons, List.forall_mem_cons, ← ih]
      cases hc : e.isSpecial c with
      | true =>
          refine iff_of_false ?_ (fun h => by cases h.1)
          intro h
          have hlen := congrArg List.length h
          have hle := length_le_encode e p
          rw [if_pos rfl, List.length_append, List.length_cons] at hlen
          have hthree : (PctEncoding.escape c).length = 3 := rfl
          omega
      | false =>
          rw [if_neg Bool.false_ne_true]
          constructor
          · exact fun h => ⟨rfl, (List.cons.inj h).2⟩
          · exact fun h => congrArg (c :: ·) h.2

/-- The characters of an IPv4 address are copied by any encoding of names. -/
theorem matchIpV4_plain {s : Bytes} (h : matchIpV4 s = some []) :
    ∀ c ∈ s, regNamePctSet.isSpecial c = false := by
  have hdigit : ∀ c, isDigit c = true → regNamePctSet.isSpecial c = false :=
    forall_byte (by decide +kernel)
  obtain ⟨used, hused, hall⟩ := matchIpV4_consumes hdigit (by decide) h
  rw [hused, List.append_nil]
  exact hall

/-- **WHAT IS COPIED**: a host without special characters, and an address in brackets
    that the parser takes. -/
theorem hostText_eq_self (s : Bytes) :
    hostText s = s ↔ (∀ c ∈ s, regNamePctSet.isSpecial c = false) ∨ parseIpLiteral s = .ok [] := by
  have hname : regNamePctSet.encode s = s ↔ ∀ c ∈ s, regNamePctSet.isSpecial c = false :=
    encode_eq_self
  rw [hostText, parsePlainHostname]
  cases hlit : parseIpLiteral s with
  | ok rest =>
      cases rest with
      | nil => exact iff_of_true rfl (Or.inr rfl)
      | cons x p =>
          refine hname.trans (or_iff_left ?_).symm
          intro h
          cases h
  | error ec =>
      have hno : ¬ (Except.error ec : Except Error Bytes) = .ok [] := fun h => by cases h
      rw [or_iff_left hno, ← hname]
      cases ec with
      | noMatch =>
          dsimp only
          by_cases hv4 : matchIpV4 s = some []
          · rw [if_pos hv4]
            exact iff_of_true rfl (hname.mpr (matchIpV4_plain hv4))
          · rw [if_neg hv4]
      | syntaxError => rfl
      | invalid => rfl
      | badPctEncodingDigit => rfl
      | incompletePctEncoding => rfl
      | illegalReservedChar => rfl

example : hostText (lit "[2001:DB8::1]") = lit "[2001:DB8::1]"
    ∧ hostText (lit "[2001:db8::1]") = lit "%5B2001%3Adb8%3A%3A1%5D" := by
  decide +kernel

/-- A text is no shorter than its host. -/
theorem length_le_hostText (s : Bytes) : s.length ≤ (hostText s).length := by
  rw [hostText]
  split
  · exact length_le_encode ..
  · exact le_rfl

/-- A percent escape is made of a percent sign and uppercase digits. -/
theorem escape_noEnd (x : UInt8) : ∀ c ∈ PctEncoding.escape x, endsAuthority c = false := by
  have hhex : ∀ n, endsAuthority ((lit "0123456789ABCDEF").getD n 0) = false := by
    intro n
    rcases lt_or_ge n 16 with hn | hn
    · revert n
      decide +kernel
    · rw [List.getD_eq_default _ _ hn]
      rfl
  simp only [PctEncoding.escape, List.forall_mem_cons]
  exact ⟨by decide, hhex _, hhex _, fun c hc => by cases hc⟩

/-- A host in which no character ends an authority is stored as such a one. -/
theorem hostText_noEnd {s : Bytes} (h : ∀ c ∈ s, endsAuthority c = false) :
    ∀ c ∈ hostText s, endsAuthority c = false := by
  rw [hostText]
  split
  · intro c hc
    obtain ⟨x, hmem, hx⟩ := List.mem_flatMap.mp hc
    split at hx
    · exact escape_noEnd x c hx
    · rw [List.mem_singleton.mp hx]
      exact h x hmem
  · exact h

/-! ## Valid fields -/

theorem unreserved_plain {c : UInt8} (h : isUnreserved c = true) :
    regNamePctSet.isSpecial c = false ∧ endsAuthority c = false ∧ c ≠ '['.toUInt8 := by
  have hall : ∀ c : UInt8, isUnreserved c = true → regNamePctSet.isSpecial c = false
      ∧ endsAuthority c = false ∧ c ≠ '['.toUInt8 := forall_byte (by decide +kernel)
  exact hall c h

theorem hexDig_noEnd {c : UInt8} (h : isHexDig c = true) : endsAuthority c = false := by
  have hall : ∀ c : UInt8, isHexDig c = true → endsAuthority c = false :=
    forall_byte (by decide +kernel)
  exact hall c h

theorem isUnreserved_of_digit {c : UInt8} (h : isDigit c = true) : isUnreserved c = true := by
  rw [isUnreserved, h, Bool.or_true, Bool.true_or]

/-- A host is a name, as which an IPv4 address can be read, or an address in brackets. -/
theorem host_cases {host : Bytes} (h : Host host) :
    (∀ c ∈ host, isUnreserved c = true)
      ∨ ∃ a, IPv6Address a ∧ host = '['.toUInt8 :: (a ++ [']'.toUInt8]) := by
  cases h with
  | name hs => exact Or.inl hs
  | ipv4 ha => exact Or.inl (ipv4_chars (fun _ => isUnreserved_of_digit) (by decide) ha)
  | ipv6 ha => exact Or.inr ⟨_, ha, rfl⟩

theorem host_noEnd {host : Bytes} (h : Host host) : ∀ c ∈ host, endsAuthority c = false := by
  rcases host_cases h with hname | ⟨a, ha, rfl⟩
  · exact fun c hc => (unreserved_plain (hname c hc)).2.1
  · have hall := ipv6_chars (P := fun c => endsAuthority c = false) (fun _ => hexDig_noEnd)
      (by decide) (by decide) ha
    simp only [List.forall_mem_append, List.forall_mem_cons]
    exact ⟨by decide, hall, by decide, fun c hc => by cases hc⟩

theorem port_noEnd {port : Bytes} (h : Port port) : ∀ c ∈ port, endsAuthority c = false := by
  rcases h with rfl | ⟨ds, rfl, hds⟩
  · exact fun c hc => by cases hc
  · refine List.forall_mem_cons.mpr ⟨by decide, ?_⟩
    exact fun c hc => (unreserved_plain (isUnreserved_of_digit (hds c hc))).2.1

/-- What the parser takes as an address ends with the bracket. -/
theorem parseIpLiteral_getLast {s : Bytes} (h : parseIpLiteral s = .ok []) :
    s.getLast? = some ']'.toUInt8 := by
  obtain ⟨q, rfl, hq⟩ := parseIpLiteral_eq_nil.mp h
  obtain ⟨used, rfl, -⟩ := parseIpV6_consumes hq
  show ('['.toUInt8 :: used ++ [']'.toUInt8]).getLast? = _
  rw [List.getLast?_append]
  rfl

/-- **A VALID FIELD** is stored unchanged exactly when it has no port and no lowercase
    digit in brackets. -/
theorem hostText_field {host port : Bytes} (hhost : Host host) (hport : Port port) :
    hostText (host ++ port) = host ++ port
      ↔ port = [] ∧ (host.head? = some '['.toUInt8 → ∀ c ∈ host, NotLower c) := by
  rw [hostText_eq_self]
  rcases hport with rfl | ⟨ds, rfl, hds⟩
  · rw [List.append_nil, and_iff_right rfl]
    rcases host_cases hhost with hname | ⟨a, ha, rfl⟩
    · refine iff_of_true (Or.inl fun c hc => (unreserved_plain (hname c hc)).1) ?_
      intro hhead
      obtain ⟨rest, rfl⟩ := List.head?_eq_some_iff.mp hhead
      exact absurd rfl (unreserved_plain (hname _ (List.mem_cons_self ..))).2.2
    · have hspecial : ¬ ∀ c ∈ '['.toUInt8 :: (a ++ [']'.toUInt8]),
          regNamePctSet.isSpecial c = false := by
        intro hall
        exact absurd (hall _ (List.mem_cons_self ..)) (by decide)
      rw [or_iff_right hspecial, parseIpLiteral_address ha]
      simp only [List.forall_mem_append, List.forall_mem_cons]
      constructor
      · exact fun hlow _ => ⟨by decide, hlow, by decide, fun c hc => by cases hc⟩
      · exact fun hlow => (hlow rfl).2.1
  · refine iff_of_false ?_ (fun h => by cases h.1)
    rintro (hall | hlit)
    · -- the colon is special in a name
      have hcolon := hall ':'.toUInt8 (List.mem_append_right host (List.mem_cons_self ..))
      exact absurd hcolon (by decide)
    · -- a field with a port does not end with a bracket
      have hlast := parseIpLiteral_getLast hlit
      rw [List.getLast?_append_cons] at hlast
      have hmem := List.mem_of_getLast? hlast
      rcases List.mem_cons.mp hmem with hcolon | hdigit
      · exact absurd hcolon (by decide)
      · exact absurd (hds _ hdigit) (by decide)

/-! ## The text of the URL -/

/-- The text of a parsed URL: the authority of the host field, then the path. -/
theorem url_of_parsed {req : RequestBeast} {s : RequestImpl} (h : ParsedFresh req s) :
    s.url = (if hostField req = [] then [] else lit "//" ++ hostText (hostField req))
      ++ targetPath req.target := by
  obtain ⟨-, hshows⟩ := parsed_shows h
  have hrest : s.urlPtr.base.query = [] ∧ s.urlPtr.base.frag = [] := by
    have hparse := h
    rw [ParsedFresh, RequestImpl.parseRequest_setRequest, setEncodedPath_eq] at hparse
    split at hparse
    · obtain ⟨-, rfl⟩ := Prod.mk.inj (Except.ok.inj hparse)
      rw [parseRest_base]
      split
      · next host hhost =>
          exact ⟨(Parts.setHost_frame _ host).2, Parts.setHost_frag _ host⟩
      · exact ⟨rfl, rfl⟩
    · cases hparse
  have hb := hshows.bare
  have hpath : s.urlPtr.base.path = targetPath req.target := hshows.path
  rw [RequestImpl.url, UrlImpl.url, Parts.encodedUrl, hb.scheme, hb.user, hb.password, hb.host,
    hb.port, hrest.1, hrest.2, hpath]
  by_cases hnil : hostField req = []
  · rw [if_pos hnil, if_pos hnil, hnil, hostText_eq_nil.mpr rfl]
    simp
  · rw [if_neg hnil, if_neg hnil]
    simp

/-- Where there is a host, the authority runs into a path without a slash. -/
theorem authority_append {host : Bytes} (path : Bytes)
    (h : ∀ c ∈ host, endsAuthority c = false) :
    authority (lit "//" ++ host ++ path)
      = host ++ path.takeWhile (fun c => !endsAuthority c) := by
  have hlit : matchLiteral (lit "//") (lit "//" ++ host ++ path) = some (host ++ path) := by
    have hprefix : (lit "//").isPrefixOf (lit "//" ++ host ++ path) = true :=
      List.isPrefixOf_iff_prefix.mpr ⟨host ++ path, by rw [List.append_assoc]⟩
    rw [matchLiteral, if_pos hprefix, List.append_assoc, List.drop_left]
  rw [authority, hlit]
  dsimp only
  refine List.takeWhile_append_of_pos ?_
  intro c hc
  rw [h c hc]
  rfl

/-- A special character is no first character of a relative path. -/
theorem acceptsPath_special {c : UInt8} {p : Bytes} (hc : c ≠ '/'.toUInt8)
    (hpct : c ≠ '%'.toUInt8) (hspecial : pcharNcPctSet.isSpecial c = true) :
    UrlImpl.fresh.base.acceptsPath (c :: p) = false := by
  have hparse : pcharNcPctSet.parse (c :: p) = .ok (c :: p) := by
    rw [PctEncoding.parse.eq_def]
    dsimp only
    rw [if_neg hpct, if_pos hspecial]
  have hslash : ¬ (c :: p).head? = some '/'.toUInt8 := fun h => hc (Option.some.inj h)
  show (if false = true then _ else if (c :: p).head? = some '/'.toUInt8 then _ else
    if ([] : Bytes).length = 0 then accepts (parsePathNoscheme (c :: p)) else _) = _
  rw [if_neg Bool.false_ne_true, if_neg hslash, if_pos List.length_nil, parsePathNoscheme, parsePathFrom,
    hparse]
  dsimp only
  rw [if_pos rfl]
  rfl

/-- A path that a fresh URL takes ends an authority exactly when it starts with a slash. -/
theorem takeWhile_path {path : Bytes}
    (h : path = [] ∨ UrlImpl.fresh.base.acceptsPath path = true) :
    path.takeWhile (fun c => !endsAuthority c) = []
      ↔ path = [] ∨ path.head? = some '/'.toUInt8 := by
  cases path with
  | nil => exact iff_of_true rfl (Or.inl rfl)
  | cons c p =>
      have hacc := h.resolve_left (List.cons_ne_nil c p)
      rw [or_iff_right (List.cons_ne_nil c p), List.head?_cons, Option.some.injEq,
        List.takeWhile_cons]
      cases hend : endsAuthority c with
      | false =>
          refine iff_of_false (List.cons_ne_nil _ _) ?_
          rintro rfl
          cases hend
      | true =>
          refine iff_of_true rfl ?_
          -- the other two characters start no path
          by_contra hslash
          have hspecial : ∀ x : UInt8, endsAuthority x = true →
              x ≠ '%'.toUInt8 ∧ pcharNcPctSet.isSpecial x = true :=
            forall_byte (by decide +kernel)
          obtain ⟨hpct, hc⟩ := hspecial c hend
          cases (acceptsPath_special hslash hpct hc).symm.trans hacc

/-- Such a path alone shows no authority. -/
theorem authority_path {path : Bytes}
    (h : path = [] ∨ UrlImpl.fresh.base.acceptsPath path = true) : authority path = [] := by
  have hnone : matchLiteral (lit "//") path = none := by
    rw [matchLiteral]
    refine if_neg ?_
    intro hprefix
    obtain ⟨p, rfl⟩ := List.isPrefixOf_iff_prefix.mp hprefix
    rcases h with h | h
    · cases h
    · -- an absolute path does not start with two slashes
      cases h
  rw [authority, hnone]

/-- **HOST FIELDS**: a wrapper that takes a request with a valid Host field shows the field
    and its host exactly under the condition. -/
theorem understood_iff {req : RequestBeast} {s : RequestImpl} {host port : Bytes}
    (h : ParsedFresh req s) (hfield : req.find (lit "Host") = some (host ++ port))
    (hhost : Host host) (hport : Port port) :
    Understood s host port ↔ Copied req.target host port := by
  have hfound : hostField req = host ++ port := by rw [hostField, hfield, Option.getD_some]
  obtain ⟨hpath, hshows⟩ := parsed_shows h
  have hurl := url_of_parsed h
  have hstored : s.host = hostText (host ++ port) := by
    rw [← hfound]
    exact hshows.bare.host
  have hcopied := hostText_field hhost hport
  rw [hfound] at hurl
  by_cases hnil : host ++ port = []
  · -- an empty field: there is no authority
    obtain ⟨rfl, rfl⟩ := List.append_eq_nil_iff.mp hnil
    refine iff_of_true ⟨?_, ?_⟩ ⟨rfl, ?_, Or.inl rfl⟩
    · rw [hurl, if_pos hnil]
      exact authority_path hpath
    · rw [hstored]
      exact hostText_eq_nil.mpr rfl
    · intro hhead
      cases hhead
  · have hnoEnd : ∀ c ∈ host ++ port, endsAuthority c = false :=
      List.forall_mem_append.mpr ⟨host_noEnd hhost, port_noEnd hport⟩
    have hauth : authority s.url
        = hostText (host ++ port)
          ++ (targetPath req.target).takeWhile (fun c => !endsAuthority c) := by
      rw [hurl, if_neg hnil]
      exact authority_append _ (hostText_noEnd hnoEnd)
    constructor
    · rintro ⟨hshown, -⟩
      rw [hauth] at hshown
      -- the text is no shorter than the field, so nothing of the path is in it
      have hlen := congrArg List.length hshown
      have hle := length_le_hostText (host ++ port)
      rw [List.length_append] at hlen
      have hrun : (targetPath req.target).takeWhile (fun c => !endsAuthority c) = [] :=
        List.length_eq_zero_iff.mp (by omega)
      rw [hrun, List.append_nil] at hshown
      obtain ⟨hnoPort, hupper⟩ := hcopied.mp hshown
      exact ⟨hnoPort, hupper, Or.inr ((takeWhile_path hpath).mp hrun)⟩
    · rintro ⟨hnoPort, hupper, hslash⟩
      have htext := hcopied.mpr ⟨hnoPort, hupper⟩
      have hhostNil : host ≠ [] := by
        rintro rfl
        exact hnil hnoPort
      have hrun := (takeWhile_path hpath).mpr (hslash.resolve_left hhostNil)
      refine ⟨?_, ?_⟩
      · rw [hauth, htext, hrun, List.append_nil]
      · rw [hstored, htext, hnoPort, List.append_nil]

/-- A request for the front page of a host. -/
theorem understood_localhost :
    Understood (parsedPage (lit "/") (some (lit "localhost"))) (lit "localhost") []
      ↔ Copied (lit "/") (lit "localhost") [] :=
  @understood_iff (pageRequest (lit "/") (some (lit "localhost"))) _ (lit "localhost") []
    (parsedFresh_page (by decide)) (by decide +kernel) (Host.name (by decide +kernel)) (Or.inl rfl)

/-- A field with a port is taken for a name: its colon is encoded, and `host()` is all of
    it. -/
theorem port_not_understood :
    ¬ ∀ req s host port, ParsedFresh req s → req.find (lit "Host") = some (host ++ port) →
      Host host → Port port → Understood s host port := by
  intro h
  have hparsed := @parsedFresh_page (lit "/") (some (lit "localhost:8081")) (by decide)
  have hshown := h _ _ (lit "localhost") (lit ":8081") hparsed (by decide +kernel)
    (Host.name (by decide +kernel)) (Or.inr ⟨lit "8081", by decide +kernel, by decide +kernel⟩)
  have hhost := hshown.host
  revert hhost
  decide +kernel

end HttpHost
