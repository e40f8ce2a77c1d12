import BookFilerHttp.ByteStringProofs

/-! # The vendored URL library: character sets and the parser

    The percent-encoding character sets (`pct_encoding`) and the parsing
    functions of `detail/parse.hpp`.  A parsing function takes the characters
    from the input pointer on and returns the characters from the new pointer on,
    or the error code; `upTo` recovers the characters between the two, which is
    what `mark` stores.

    A character of a set is `special` when its table entry is 3.  The headline
    is `parseSegments_eq_nil`: the segment loop reaches the end of its input
    exactly on the language `pathTail`. -/

namespace BoostUrl

open ByteString

/-- The error codes the parsing functions set. -/
inductive Error where
  | noMatch
  | syntaxError
  | invalid
  | badPctEncodingDigit
  | incompletePctEncoding
  | illegalReservedChar
  deriving DecidableEq

/-- What a host turned out to be. -/
inductive HostType where
  | none
  | name
  | ipv4
  | ipv6
  deriving DecidableEq

/-! ## Characters -/

def isAlpha (c : UInt8) : Bool :=
  ('A'.toUInt8 ≤ c && c ≤ 'Z'.toUInt8) || ('a'.toUInt8 ≤ c && c ≤ 'z'.toUInt8)

/-- The table of `is_scheme_char`: letters and `+-.`, no digits. -/
def isSchemeChar (c : UInt8) : Bool :=
  isAlpha c || c == '+'.toUInt8 || c == '-'.toUInt8 || c == '.'.toUInt8

def isDigit (c : UInt8) : Bool := '0'.toUInt8 ≤ c && c ≤ '9'.toUInt8

/-- `hex_digit`: only UPPERCASE digits have a value, `none` is -1. -/
def hexDigit (c : UInt8) : Option Nat :=
  if isDigit c then some (c - '0'.toUInt8).toNat
  else if 'A'.toUInt8 ≤ c && c ≤ 'F'.toUInt8 then
    some (c - 'A'.toUInt8 + 10).toNat
  else none

/-- A percent-encoding set, given by the characters its table marks 1; every
    other entry of the 256 is 3. -/
structure PctEncoding where
  plain : Bytes

/-- Unreserved characters and sub-delimiters, common to all the sets. -/
def unreservedSubdelims : Bytes :=
  lit "!$&'()*+,-.0123456789;=ABCDEFGHIJKLMNOPQRSTUVWXYZ_abcdefghijklmnopqrstuvwxyz~"

def regNamePctSet : PctEncoding := ⟨unreservedSubdelims⟩

def userinfoPctSet : PctEncoding := ⟨unreservedSubdelims ++ lit ":"⟩

/-- `userinfo_nc_pct_set`: the user part, without the colon. -/
def userinfoNcPctSet : PctEncoding := regNamePctSet

def pcharPctSet : PctEncoding := ⟨unreservedSubdelims ++ lit ":@"⟩

def pcharNcPctSet : PctEncoding := ⟨unreservedSubdelims ++ lit "@"⟩

def fragPctSet : PctEncoding := ⟨unreservedSubdelims ++ lit ":@/?"⟩

def qkeyPctSet : PctEncoding :=
  ⟨fragPctSet.plain.filter (· != '='.toUInt8)⟩

def qvalPctSet : PctEncoding :=
  ⟨fragPctSet.plain.filter (· != '&'.toUInt8)⟩

def queryPctSet : PctEncoding := fragPctSet

namespace PctEncoding

/-- `is_special`: the table entry is 3. -/
def isSpecial (e : PctEncoding) (c : UInt8) : Bool := !e.plain.contains c

/-- `decoded_size` as a validator: special characters are illegal, and every
    percent sign starts a complete escape. -/
def decodedSize (e : PctEncoding) : Bytes → Except Error Nat
  | [] => .ok 0
  | c :: p =>
      if c = '%'.toUInt8 then
        match p with
        | a :: b :: rest =>
            if hexDigit a = none ∨ hexDigit b = none then
              .error .badPctEncodingDigit
            else (e.decodedSize rest).map (· + 1)
        | _ => .error .incompletePctEncoding
      else if e.isSpecial c then .error .illegalReservedChar
      else (e.decodedSize p).map (· + 1)

/-- `parse`: skip plain characters and complete escapes; stop at the first
    special character. -/
def parse (e : PctEncoding) : Bytes → Except Error Bytes
  | [] => .ok []
  | c :: p =>
      if c = '%'.toUInt8 then
        match p with
        | a :: b :: rest =>
            if hexDigit a = none ∨ hexDigit b = none then
              .error .badPctEncodingDigit
            else e.parse rest
        | _ => .error .incompletePctEncoding
      else if e.isSpecial c then .ok (c :: p)
      else e.parse p

/-- `encode` of one character into a percent escape. -/
def escape (c : UInt8) : Bytes :=
  let hex := lit "0123456789ABCDEF"
  ['%'.toUInt8, hex.getD (c >>> 4).toNat 0, hex.getD (c &&& 0xf).toNat 0]

/-- `encode`: special characters are escaped, the others copied.  The buffer it
    writes to has `encoded_size` bytes, one or three for each character. -/
def encode (e : PctEncoding) (s : Bytes) : Bytes :=
  s.flatMap (fun c => if e.isSpecial c then escape c else [c])

end PctEncoding

/-- The characters between two input pointers. -/
def upTo (s rest : Bytes) : Bytes := s.take (s.length - rest.length)

/-- `match_literal`. -/
def matchLiteral (l s : Bytes) : Option Bytes :=
  if l.isPrefixOf s then some (s.drop l.length) else none

/-! ## Scheme and authority -/

/-- `match_scheme`: a letter, then scheme characters. -/
def matchScheme : Bytes → Option Bytes
  | [] => none
  | c :: p => if isAlpha c then some (p.dropWhile isSchemeChar) else none

/-- `match_octet` after its first digit. -/
def matchOctetLoop : Nat → Bytes → Option (Nat × Bytes)
  | v, [] => some (v, [])
  | v, c :: p =>
      if isDigit c then
        if 10 * v + (c - '0'.toUInt8).toNat > 255 then none
        else matchOctetLoop (10 * v + (c - '0'.toUInt8).toNat) p
      else some (v, c :: p)

/-- `match_octet`: 0..255 in decimal without a leading zero; `none` is -1. -/
def matchOctet : Bytes → Option (Nat × Bytes)
  | [] => none
  | c :: p =>
      if isDigit c then
        if c = '0'.toUInt8 then some (0, p)
        else matchOctetLoop (c - '0'.toUInt8).toNat p
      else none

/-- `match_ip_v4`: four octets between dots. -/
def matchIpV4 (s : Bytes) : Option Bytes :=
  match matchOctet s with
  | some (_, d₁ :: s₁) =>
      if d₁ = '.'.toUInt8 then
        match matchOctet s₁ with
        | some (_, d₂ :: s₂) =>
            if d₂ = '.'.toUInt8 then
              match matchOctet s₂ with
              | some (_, d₃ :: s₃) =>
                  if d₃ = '.'.toUInt8 then
                    (matchOctet s₃).map Prod.snd
                  else none
              | _ => none
            else none
        | _ => none
      else none
  | _ => none

/-- `parse_word` after its first digit: at most `n` more hexadecimal digits. -/
def parseWordLoop : Nat → Nat → Bytes → Nat × Bytes
  | 0, v, s => (v, s)
  | _ + 1, v, [] => (v, [])
  | n + 1, v, c :: p =>
      match hexDigit c with
      | some d => parseWordLoop n (16 * v + d) p
      | none => (v, c :: p)

/-- `parse_word`: one to four hexadecimal digits. -/
def parseWord : Bytes → Except Error (Nat × Bytes)
  | [] => .error .syntaxError
  | c :: p =>
      match hexDigit c with
      | some d => .ok (parseWordLoop 3 d p)
      | none => .error .syntaxError

/-- `maybe_octet`: the hexadecimal word could be 0..255 read as decimal. -/
def maybeOctet (word : Nat) : Bool :=
  !(word > 0x255 || (word >>> 4) &&& 0xf > 9 || word &&& 0xf > 9)

/-- The dotted tail of an IPv6 address: three more octets after the first. -/
def parseOctetTail (s : Bytes) : Except Error Bytes :=
  match matchOctet s with
  | some (_, d₁ :: s₁) =>
      if d₁ = '.'.toUInt8 then
        match matchOctet s₁ with
        | some (_, d₂ :: s₂) =>
            if d₂ = '.'.toUInt8 then
              match matchOctet s₂ with
              | some (_, s₃) => .ok s₃
              | none => .error .syntaxError
            else .error .syntaxError
        | _ => .error .syntaxError
      else .error .syntaxError
  | _ => .error .syntaxError

/-- The loop of `parse_ip_v6`: `n` words needed, `b` got "::", `c` need a colon,
    `word` the last word.  Every iteration consumes a character, so the length
    of the input bounds the number of iterations (the first argument). -/
def parseIpV6Loop : Nat → Nat → Bool → Bool → Nat → Bytes → Except Error Bytes
  | 0, _, _, _, _, _ => .error .syntaxError
  | _ + 1, _, b, _, _, [] => if b then .ok [] else .error .syntaxError
  | fuel + 1, n, b, c, word, x :: p =>
      if x = ':'.toUInt8 then
        match p with
        | [] => .error .syntaxError
        | y :: p' =>
            if y = ':'.toUInt8 then
              -- a second "::"
              if b then .error .syntaxError
              else if n - 1 = 0 then .ok p'
              else parseIpV6Loop fuel (n - 1) true false word p'
            else if c then
              match parseWord (y :: p') with
              | .error ec => .error ec
              | .ok (w, p'') =>
                  if n - 1 = 0 then .ok p''
                  else parseIpV6Loop fuel (n - 1) b c w p''
            else .error .syntaxError
      else if x = '.'.toUInt8 then
        -- the last word was the first octet of a dotted tail
        if !b && n > 1 then .error .syntaxError
        else if !maybeOctet word then .error .syntaxError
        else parseOctetTail p
      -- after "::" the address may end at any other character
      else if b && (hexDigit x).isNone then .ok (x :: p)
      else if !c then
        match parseWord (x :: p) with
        | .error ec => .error ec
        | .ok (w, p') =>
            if n - 1 = 0 then .ok p'
            else parseIpV6Loop fuel (n - 1) b true w p'
      else .error .syntaxError

def parseIpV6 (s : Bytes) : Except Error Bytes :=
  match s with
  | [] => .error .syntaxError
  | _ => parseIpV6Loop (s.length + 1) 8 false false 0 s

/-- `parse_ip_literal`: an IPv6 address in brackets. -/
def parseIpLiteral : Bytes → Except Error Bytes
  | [] => .error .noMatch
  | c :: p =>
      if c = '['.toUInt8 then
        match parseIpV6 p with
        | .error ec => .error ec
        | .ok (x :: p') =>
            if x = ']'.toUInt8 then .ok p' else .error .syntaxError
        | .ok [] => .error .syntaxError
      else .error .noMatch

/-- `parse_ipv4_or_domain`: the host type (`h` when nothing is consumed) and the
    rest.  A failed `match_ip_v4` leaves the pointer behind digits and dots, which
    the name parser skips anyway, so it is run from the start here. -/
def parseIpv4OrDomain (h : HostType) (s : Bytes) : Except Error (HostType × Bytes) :=
  match matchIpV4 s with
  | some p₁ =>
      match regNamePctSet.parse p₁ with
      | .error ec => .error ec
      | .ok p => .ok (if p = p₁ then .ipv4 else .name, p)
  | none =>
      match regNamePctSet.parse s with
      | .error ec => .error ec
      | .ok p => .ok (if p = s then h else .name, p)

/-- `parse_hostname`. -/
def parseHostname (s : Bytes) : Except Error (HostType × Bytes) :=
  match parseIpLiteral s with
  | .ok p => .ok (.ipv6, p)
  | .error .noMatch => parseIpv4OrDomain .none s
  | .error ec => .error ec

/-- `match_port`: digits. -/
def matchPort (s : Bytes) : Bytes := s.dropWhile isDigit

/-! ## Paths -/

/-- The loop over `"/" segment`, bounded by the length of the input. -/
def segmentLoop : Nat → Bytes → Except Error Bytes
  | 0, s => .ok s
  | _ + 1, [] => .ok []
  | fuel + 1, c :: p =>
      if c = '/'.toUInt8 then
        match pcharPctSet.parse p with
        | .error ec => .error ec
        | .ok p' => segmentLoop fuel p'
      else .ok (c :: p)

/-- `*( "/" segment )`, as every path function ends. -/
def parseSegments (s : Bytes) : Except Error Bytes := segmentLoop s.length s

def parsePathAbempty (s : Bytes) : Except Error Bytes := parseSegments s

/-- `parse_path_absolute`.  The first segment is parsed from its SECOND
    character on, so its first character is not looked at beyond the test
    against another slash. -/
def parsePathAbsolute : Bytes → Except Error Bytes
  | [] => .error .noMatch
  | c :: p =>
      if c = '/'.toUInt8 then
        match p with
        | [] => .ok []
        | d :: p' =>
            if d = '/'.toUInt8 then .error .invalid
            else
              match pcharPctSet.parse p' with
              | .error ec => .error ec
              | .ok rest => parseSegments rest
      else .error .noMatch

/-- The two relative path forms: a first segment over the set `e` that is not
    empty, then segments. -/
def parsePathFrom (e : PctEncoding) (s : Bytes) : Except Error Bytes :=
  match e.parse s with
  | .error ec => .error ec
  | .ok p => if p = s then .error .noMatch else parseSegments p

def parsePathNoscheme (s : Bytes) : Except Error Bytes :=
  parsePathFrom pcharNcPctSet s

def parsePathRootless (s : Bytes) : Except Error Bytes :=
  parsePathFrom pcharPctSet s

/-! ## Query and fragment -/

/-- The loop of `parse_query` over `key [ "=" value ]`, bounded by the length of
    the input.  The key set holds the ampersand and the question mark the loop
    starts at, so a key can run over several of them. -/
def queryLoop : Nat → Bytes → Except Error Bytes
  | 0, s => .ok s
  | fuel + 1, s =>
      match qkeyPctSet.parse s with
      | .error ec => .error ec
      | .ok [] => .ok []
      | .ok (c :: p) =>
          if c = '='.toUInt8 then
            match p with
            | [] => .ok []
            | _ =>
                match qvalPctSet.parse p with
                | .error ec => .error ec
                | .ok [] => .ok []
                | .ok (d :: p') =>
                    if d = '&'.toUInt8 then queryLoop fuel p' else .ok (d :: p')
          else .ok (c :: p)

def parseQuery : Bytes → Except Error Bytes
  | [] => .ok []
  | c :: p =>
      if c = '?'.toUInt8 then queryLoop (p.length + 1) (c :: p) else .ok (c :: p)

def parseFragment : Bytes → Except Error Bytes
  | [] => .ok []
  | c :: p =>
      if c = '#'.toUInt8 then fragPctSet.parse p else .ok (c :: p)

/-! ## Whole URLs -/

/-- The parts of a URL, each with its delimiters as the buffer holds it: the
    scheme with its colon, the user with the leading slashes, the password with
    its colon and the at sign, the port, query and fragment with their first
    character. -/
structure Parts where
  scheme : Bytes := []
  user : Bytes := []
  password : Bytes := []
  host : Bytes := []
  port : Bytes := []
  path : Bytes := []
  query : Bytes := []
  frag : Bytes := []
  hostType : HostType := .none
  deriving DecidableEq

/-- `parse_host`: host name, then an optional port. -/
def parseHost (pt : Parts) (s : Bytes) : Except Error (Parts × Bytes) :=
  match parseHostname s with
  | .error ec => .error ec
  | .ok (h, p) =>
      let pt := { pt with host := upTo s p, hostType := h }
      match p with
      | [] => .ok (pt, [])
      | c :: p' =>
          if c = ':'.toUInt8 then
            .ok ({ pt with port := upTo p (matchPort p') }, matchPort p')
          else .ok (pt, p)

/-- `parse_userinfo`: user and password, not yet delimited. -/
def parseUserinfo (s : Bytes) : Except Error (Bytes × Bytes × Bytes) :=
  match userinfoNcPctSet.parse s with
  | .error ec => .error ec
  | .ok p₁ =>
      match userinfoPctSet.parse p₁ with
      | .error ec => .error ec
      | .ok p₂ => .ok (upTo s p₁, upTo p₁ p₂, p₂)

/-- `parse_authority` behind the two slashes: what was read as user information
    is read again as a host when no at sign follows. -/
def parseAuthority (pt : Parts) (s : Bytes) : Except Error (Parts × Bytes) :=
  match parseUserinfo s with
  | .error ec => .error ec
  | .ok (user, password, p) =>
      match matchLiteral (lit "@") p with
      | some p' =>
          parseHost { pt with user := lit "//" ++ user,
                              password := password ++ lit "@" } p'
      -- the pointer is set back: the user information was the host
      | none => parseHost { pt with user := lit "//" } s

/-- `parse_hier_part` and `parse_relative_part`: an authority and a path, or an
    absolute path, or the path form `third`, or an empty path. -/
def parsePart (third : Bytes → Except Error Bytes) (pt : Parts) (s : Bytes) :
    Except Error (Parts × Bytes) :=
  match matchLiteral (lit "//") s with
  | some p =>
      match parseAuthority pt p with
      | .error ec => .error ec
      | .ok (pt, p₁) =>
          match parsePathAbempty p₁ with
          | .error ec => .error ec
          | .ok p₂ => .ok ({ pt with path := upTo p₁ p₂ }, p₂)
  | none =>
      match parsePathAbsolute s with
      | .ok p => .ok ({ pt with path := upTo s p }, p)
      | .error .noMatch =>
          match third s with
          | .ok p => .ok ({ pt with path := upTo s p }, p)
          | .error .noMatch => .ok (pt, s)
          | .error ec => .error ec
      | .error ec => .error ec

def parseHierPart : Parts → Bytes → Except Error (Parts × Bytes) :=
  parsePart parsePathRootless

def parseRelativePart : Parts → Bytes → Except Error (Parts × Bytes) :=
  parsePart parsePathNoscheme

/-- The end of `parse_url`: query, fragment, and nothing after them. -/
def parseUrlTail (pt : Parts) (s : Bytes) : Except Error Parts :=
  match parseQuery s with
  | .error ec => .error ec
  | .ok p =>
      match parseFragment p with
      | .error ec => .error ec
      | .ok [] => .ok { pt with query := upTo s p, frag := upTo p [] }
      | .ok _ => .error .syntaxError

/-- The rest behind `scheme ":"`, if the string starts with one. -/
def matchSchemeColon (s : Bytes) : Option Bytes :=
  (matchScheme s).bind (matchLiteral (lit ":"))

/-- `parse_url`: an absolute URI or a relative reference. -/
def parseUrl (s : Bytes) : Except Error Parts :=
  match matchSchemeColon s with
  | some p =>
      match parseHierPart { scheme := upTo s p } p with
      | .error ec => .error ec
      | .ok (pt, p₁) => parseUrlTail pt p₁
  | none =>
      match parseRelativePart {} s with
      | .error ec => .error ec
      | .ok (pt, p₁) => parseUrlTail pt p₁

example : parseUrl (lit "http://u@h.c:80/p/q?a=b#f") = .ok
    { scheme := lit "http:", user := lit "//u", password := lit "@",
      host := lit "h.c", port := lit ":80", path := lit "/p/q",
      query := lit "?a=b", frag := lit "#f", hostType := .name } := by
  decide +kernel

/-! ## The language of the path functions -/

/-- Path characters, slashes and complete uppercase escapes, in any order. -/
def pathTail : Bytes → Bool
  | [] => true
  | c :: p =>
      if c = '%'.toUInt8 then
        match p with
        | a :: b :: rest =>
            (hexDigit a).isSome && (hexDigit b).isSome && pathTail rest
        | _ => false
      else (c == '/'.toUInt8 || !pcharPctSet.isSpecial c) && pathTail p

/-- The paths `parse_path_absolute` reads to the end: a slash, and behind it
    nothing, or one character that is not a slash and a path tail. -/
def pathAbsolute : Bytes → Bool
  | [] => false
  | [c] => c == '/'.toUInt8
  | c :: d :: p => c == '/'.toUInt8 && d != '/'.toUInt8 && pathTail p

/-- What `parse` leaves is no longer than its input. -/
theorem parse_length {e : PctEncoding} {s rest : Bytes}
    (h : e.parse s = .ok rest) : rest.length ≤ s.length := by
  fun_induction PctEncoding.parse e s with
  | case1 => rw [← Except.ok.inj h]
  | case2 a b tl hhex => cases h
  | case3 a b tl hhex ih =>
      have := ih h
      simp only [List.length_cons]
      omega
  | case4 => cases h
  | case5 => rw [← Except.ok.inj h]
  | case6 c p hpct hspec ih =>
      have := ih h
      simp only [List.length_cons]
      omega

/-- A path tail is what one segment leaves: nothing, or a slash and a path
    tail. -/
theorem pathTail_eq (s : Bytes) :
    pathTail s = match pcharPctSet.parse s with
      | .error _ => false
      | .ok [] => true
      | .ok (c :: p) => c == '/'.toUInt8 && pathTail p := by
  fun_induction PctEncoding.parse pcharPctSet s with
  | case1 => rfl
  -- a bad escape ends both sides
  | case2 a b tl hhex =>
      rw [pathTail.eq_def]
      rcases hhex with ha | hb
      · simp [ha]
      · simp [hb]
  | case3 a b tl hhex ih =>
      obtain ⟨ha, hb⟩ := not_or.mp hhex
      rw [← ih, pathTail.eq_def]
      simp [Option.isSome_iff_ne_none.mpr ha, Option.isSome_iff_ne_none.mpr hb]
  | case4 p hshort =>
      rw [pathTail.eq_def]
      simp only [if_pos]
  -- a special character: only a slash goes on
  | case5 c p hpct hspec =>
      rw [pathTail.eq_def]
      simp only [if_neg hpct, hspec, Bool.not_true, Bool.or_false]
  | case6 c p hpct hspec ih =>
      rw [← ih, pathTail.eq_def]
      simp only [if_neg hpct, hspec, Bool.not_false, Bool.or_true, Bool.true_and]

/-- **THE SEGMENT LOOP** reaches the end of its input exactly when it starts at
    the end or at a slash and reads a path tail. -/
theorem segmentLoop_eq_nil :
    ∀ (fuel : Nat) (s : Bytes), s.length ≤ fuel →
      (segmentLoop fuel s = .ok [] ↔
        s = [] ∨ ∃ p, s = '/'.toUInt8 :: p ∧ pathTail p = true) := by
  intro fuel
  induction fuel with
  | zero =>
      intro s hlen
      rw [List.length_eq_zero_iff.mp (Nat.le_zero.mp hlen)]
      simp [segmentLoop]
  | succ fuel ih =>
      intro s hlen
      cases s with
      | nil => simp [segmentLoop]
      | cons c p =>
          rw [segmentLoop]
          by_cases hc : c = '/'.toUInt8
          · rw [if_pos hc, hc]
            have hrhs : ('/'.toUInt8 :: p = [] ∨ ∃ q, '/'.toUInt8 :: p
                = '/'.toUInt8 :: q ∧ pathTail q = true) ↔ pathTail p = true := by
              simp
            rw [hrhs, pathTail_eq p]
            cases hp : pcharPctSet.parse p with
            | error ec => simp
            | ok rest =>
                -- the slash has been consumed, so the fuel still suffices
                have hle : rest.length ≤ fuel := by
                  have := parse_length hp
                  simp only [List.length_cons] at hlen
                  omega
                show segmentLoop fuel rest = .ok [] ↔ _
                rw [ih rest hle]
                cases rest with
                | nil => simp
                | cons d q => simp
          · rw [if_neg hc]
            constructor
            · intro h
              cases h
            · rintro (h | ⟨q, h, -⟩)
              · cases h
              · exact absurd (List.cons.inj h).1 hc

theorem parseSegments_eq_nil (s : Bytes) :
    parseSegments s = .ok [] ↔
      s = [] ∨ ∃ p, s = '/'.toUInt8 :: p ∧ pathTail p = true :=
  segmentLoop_eq_nil s.length s (Nat.le_refl _)

/-- **PATH-ABSOLUTE**: the function reads its whole input exactly on
    `pathAbsolute`. -/
theorem parsePathAbsolute_eq_nil (s : Bytes) :
    parsePathAbsolute s = .ok [] ↔ pathAbsolute s = true := by
  cases s with
  | nil => simp [parsePathAbsolute, pathAbsolute]
  | cons c p =>
      rw [parsePathAbsolute.eq_def]
      by_cases hc : c = '/'.toUInt8
      · cases p with
        | nil => simp [hc, pathAbsolute]
        | cons d p' =>
            by_cases hd : d = '/'.toUInt8
            · simp [hc, hd, pathAbsolute]
            · have hrhs : pathAbsolute (c :: d :: p') = pathTail p' := by
                simp [pathAbsolute, hc, hd]
              -- from the second character on both sides read segments
              rw [hrhs, pathTail_eq p']
              simp only [if_pos hc, if_neg hd]
              cases hp : pcharPctSet.parse p' with
              | error ec => simp
              | ok rest =>
                  show parseSegments rest = .ok [] ↔ _
                  rw [parseSegments_eq_nil]
                  cases rest with
                  | nil => simp
                  | cons x q => simp
      · simp only [if_neg hc]
        cases p with
        | nil => simp [pathAbsolute, hc]
        | cons d p' => simp [pathAbsolute, hc]

end BoostUrl
