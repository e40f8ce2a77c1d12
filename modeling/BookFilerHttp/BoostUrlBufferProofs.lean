import BookFilerHttp.BoostUrlGrammarProofs
import BookFilerHttp.SegmentedBufferProofs

/-! # The vendored URL library: the buffer under the parts

    `url_base` keeps a URL in ONE block of memory with a table of offsets.  The
    parser marks offsets in the table, and may mark them a second time when it goes
    back; a setter resizes one part (or the run of the authority's parts), which
    moves everything behind it and may need a larger block, and then writes the new
    bytes one by one through a pointer into the block.

    Here the setters and observers that the HTTP module and its `Url` use run on the
    block and the table as they are.  Every access is checked, and so is every assertion
    of theirs, so that "no call leaves its block" and "no assertion fails" are facts
    about runs. -/

namespace BoostUrl

open ByteString

/-! ## The table of offsets -/

abbrev idScheme : Nat := 0
abbrev idUser : Nat := 1
abbrev idPassword : Nat := 2
abbrev idHost : Nat := 3
abbrev idPort : Nat := 4
abbrev idPath : Nat := 5
abbrev idQuery : Nat := 6
abbrev idFrag : Nat := 7
abbrev idEnd : Nat := 8

/-- `parts`: where each part starts, and the kind of the host. -/
structure PartTable where
  offset : Nat → Nat := fun _ => 0
  host : HostType := .none

namespace PartTable

def length (pt : PartTable) (id : Nat) : Nat := SegmentedBuffer.length pt.offset id

/-- `length(begin, end)`. -/
def lengthRange (pt : PartTable) (first last : Nat) : Nat := pt.offset last - pt.offset first

def resize (pt : PartTable) (id n : Nat) : PartTable :=
  { pt with offset := SegmentedBuffer.resize pt.offset id n }

def split (pt : PartTable) (id n : Nat) : PartTable :=
  { pt with offset := SegmentedBuffer.split pt.offset id n }

end PartTable

/-- The parts in the order of the table. -/
def Parts.pieces (u : Parts) : List Bytes :=
  [u.scheme, u.user, u.password, u.host, u.port, u.path, u.query, u.frag]

/-- The pieces of the parts, put together, are the URL. -/
theorem Parts.flatten_pieces (u : Parts) : u.pieces.flatten = u.encodedUrl := by
  simp [Parts.pieces, Parts.encodedUrl]

/-! ## Parsing into the table -/

/-- `mark`: the part `id` of the input `s` ends where `p` starts. -/
def mark (s p : Bytes) (pt : PartTable) (id : Nat) : PartTable :=
  if id = idScheme then pt.resize idScheme (s.length - p.length)
  else pt.resize id (s.length - p.length - pt.offset id)

/-- `parse_hostname`. -/
def markHostname (s : Bytes) (pt : PartTable) (p : Bytes) :
    Except Error (PartTable × Bytes) :=
  match parseIpLiteral p with
  | .ok q => .ok (mark s q { pt with host := .ipv6 } idHost, q)
  | .error .noMatch =>
      match parseIpv4OrDomain pt.host p with
      | .error ec => .error ec
      | .ok (h, q) => .ok (mark s q { pt with host := h } idHost, q)
  | .error ec => .error ec

/-- `parse_host`. -/
def markHost (s : Bytes) (pt : PartTable) (p : Bytes) : Except Error (PartTable × Bytes) :=
  match markHostname s pt p with
  | .error ec => .error ec
  | .ok (pt, []) => .ok (pt, [])
  | .ok (pt, c :: q) =>
      if c = ':'.toUInt8 then .ok (mark s (matchPort q) pt idPort, matchPort q)
      else .ok (pt, c :: q)

/-- `parse_userinfo`. -/
def markUserinfo (s : Bytes) (pt : PartTable) (p : Bytes) :
    Except Error (PartTable × Bytes) :=
  match userinfoNcPctSet.parse p with
  | .error ec => .error ec
  | .ok p₁ =>
      match userinfoPctSet.parse p₁ with
      | .error ec => .error ec
      | .ok p₂ => .ok (mark s p₂ (mark s p₁ pt idUser) idPassword, p₂)

/-- `parse_authority`: without an at sign the pointer goes back and user and password
    are marked again. -/
def markAuthority (s : Bytes) (pt : PartTable) (p₀ : Bytes) :
    Except Error (PartTable × Bytes) :=
  match markUserinfo s pt p₀ with
  | .error ec => .error ec
  | .ok (pt, p) =>
      match matchLiteral (lit "@") p with
      | some p' => markHost s (mark s p' pt idPassword) p'
      | none => markHost s (mark s p₀ (mark s p₀ pt idUser) idPassword) p₀

/-- `parse_hier_part` and `parse_relative_part`. -/
def markPart (third : Bytes → Except Error Bytes) (s : Bytes) (pt : PartTable)
    (p : Bytes) : Except Error (PartTable × Bytes) :=
  match matchLiteral (lit "//") p with
  | some p' =>
      match markAuthority s pt p' with
      | .error ec => .error ec
      | .ok (pt, p₁) =>
          match parsePathAbempty p₁ with
          | .error ec => .error ec
          | .ok p₂ => .ok (mark s p₂ pt idPath, p₂)
  | none =>
      match parsePathAbsolute p with
      | .ok q => .ok (mark s q pt idPath, q)
      | .error .noMatch =>
          match third p with
          | .ok q => .ok (mark s q pt idPath, q)
          | .error .noMatch => .ok (pt, p)
          | .error ec => .error ec
      | .error ec => .error ec

/-- `parse_query`: the part is marked only when there is one. -/
def markQuery (s : Bytes) (pt : PartTable) (p : Bytes) : Except Error (PartTable × Bytes) :=
  if p.head? = some '?'.toUInt8 then
    match parseQuery p with
    | .error ec => .error ec
    | .ok q => .ok (mark s q pt idQuery, q)
  else .ok (pt, p)

/-- `parse_fragment`. -/
def markFragment (s : Bytes) (pt : PartTable) (p : Bytes) :
    Except Error (PartTable × Bytes) :=
  if p.head? = some '#'.toUInt8 then
    match parseFragment p with
    | .error ec => .error ec
    | .ok q => .ok (mark s q pt idFrag, q)
  else .ok (pt, p)

def markTail (s : Bytes) (pt : PartTable) (p : Bytes) : Except Error PartTable :=
  match markQuery s pt p with
  | .error ec => .error ec
  | .ok (pt, q) =>
      match markFragment s pt q with
      | .error ec => .error ec
      | .ok (pt, []) => .ok pt
      | .ok _ => .error .syntaxError

/-- `parse_url` into a fresh table. -/
def markUrl (s : Bytes) : Except Error PartTable :=
  match matchSchemeColon s with
  | some p =>
      match markPart parsePathRootless s (mark s p {} idScheme) p with
      | .error ec => .error ec
      | .ok (pt, q) => markTail s pt q
  | none =>
      match markPart parsePathNoscheme s {} s with
      | .error ec => .error ec
      | .ok (pt, q) => markTail s pt q

/-! ## The table of the parsed parts -/

/-- A mark cuts the table, whatever stood behind the part before. -/
theorem cut_mark {s w p : Bytes} {pt : PartTable} {ps : List Bytes} {id : Nat}
    (h : SegmentedBuffer.Cut pt.offset ps) (hid : id < ps.length)
    (hs : (ps.take id).flatten ++ w ++ p = s) :
    SegmentedBuffer.Cut (mark s p pt id).offset (ps.set id w) := by
  have hlen : s.length - p.length = (ps.take id).flatten.length + w.length := by
    rw [← hs, List.length_append, List.length_append, Nat.add_sub_cancel]
  rw [mark]
  split
  · next hzero =>
      subst hzero
      have hw : s.length - p.length = w.length := by
        rw [hlen, List.take_zero, List.flatten_nil, List.length_nil, Nat.zero_add]
      rw [hw]
      exact SegmentedBuffer.cut_resize h hid w
  · have hw : s.length - p.length - pt.offset id = w.length := by
      rw [hlen, h.offset (Nat.le_of_lt hid), Nat.add_sub_cancel_left]
    rw [hw]
    exact SegmentedBuffer.cut_resize h hid w

@[simp] theorem mark_host (s p : Bytes) (pt : PartTable) (id : Nat) :
    (mark s p pt id).host = pt.host := by
  rw [mark]
  split <;> rfl

/-- What the table says of the parts read so far: the first `k` of them are the input
    up to `p`. -/
structure Marked (s : Bytes) (k : Nat) (pt : PartTable) (u : Parts) (p : Bytes) : Prop where
  cut : SegmentedBuffer.Cut pt.offset u.pieces
  host : pt.host = u.hostType
  input : (u.pieces.take k).flatten ++ p = s

/-- The table parser follows the parser of the parts: the same error, or a table of the
    parts and the same rest. -/
inductive Follows (s : Bytes) (k : Nat) :
    Except Error (Parts × Bytes) → Except Error (PartTable × Bytes) → Prop where
  | error (ec : Error) : Follows s k (.error ec) (.error ec)
  | ok {u : Parts} {pt : PartTable} {p : Bytes} (h : Marked s k pt u p) :
      Follows s k (.ok (u, p)) (.ok (pt, p))

/-- **ONE MARK** adds one part to those read. -/
theorem Marked.mark {s w q : Bytes} {pt : PartTable} {u u' : Parts} {id : Nat}
    (hcut : SegmentedBuffer.Cut pt.offset u.pieces) (hid : id < idEnd)
    (hset : u'.pieces = u.pieces.set id w) (hhost : pt.host = u'.hostType)
    (hs : (u.pieces.take id).flatten ++ w ++ q = s) :
    Marked s (id + 1) (mark s q pt id) u' q := by
  have hcount : id < u.pieces.length := hid
  refine ⟨hset ▸ cut_mark hcut hcount hs, by rw [mark_host, hhost], ?_⟩
  have htake : (u.pieces.set id w).take (id + 1) = u.pieces.take id ++ [w] := by
    have hlt : id < (u.pieces.set id w).length := by rwa [List.length_set]
    rw [List.take_succ_eq_append_getElem hlt, List.getElem_set_self, List.take_set_of_le
      (Nat.le_refl id)]
  rw [hset, htake, List.flatten_append, List.flatten_singleton, hs]

/-- Parts that are empty count as read. -/
theorem Marked.widen {s p : Bytes} {k j : Nat} {pt : PartTable} {u : Parts}
    (h : Marked s k pt u p)
    (hskip : (u.pieces.take j).flatten = (u.pieces.take k).flatten) :
    Marked s j pt u p :=
  ⟨h.cut, h.host, hskip ▸ h.input⟩

/-! ### The authority -/

theorem markHostname_eq (s p : Bytes) {pt : PartTable} (hhost : pt.host = .none) :
    markHostname s pt p = match parseHostname p with
      | .error ec => .error ec
      | .ok (t, q) => .ok (mark s q { pt with host := t } idHost, q) := by
  rw [markHostname, parseHostname, hhost]
  rcases parseIpLiteral p with ec | q
  · cases ec <;> rfl
  · rfl

/-- The host and the port are marked where the parts have them. -/
theorem markHost_follows {s p : Bytes} {pt : PartTable} {u : Parts}
    (h : Marked s idHost pt u p) (hhost : u.hostType = .none) (hport : u.port = []) :
    Follows s idPath (parseHost u p) (markHost s pt p) := by
  rw [parseHost, markHost, markHostname_eq s p (h.host.trans hhost)]
  cases hp : parseHostname p with
  | error ec => exact .error ec
  | ok r =>
      obtain ⟨t, q⟩ := r
      obtain ⟨w, rfl, -⟩ := parseHostname_sound hp
      simp only [upTo_append]
      have hname : Marked s idPort (mark s q { pt with host := t } idHost)
          { u with host := w, hostType := t } q :=
        Marked.mark (u := u) h.cut (by decide) rfl rfl
          (by rw [List.append_assoc]; exact h.input)
      have hbare := hname.widen (j := idPath) (by simp [Parts.pieces, hport])
      cases q with
      | nil => exact .ok hbare
      | cons c q =>
          dsimp only
          split
          · next hc =>
              subst hc
              have hrest : upTo (':'.toUInt8 :: q) (matchPort q) ++ matchPort q
                  = ':'.toUInt8 :: q := by
                have hq : ':'.toUInt8 :: q
                    = ':'.toUInt8 :: q.takeWhile isDigit ++ matchPort q := by
                  rw [matchPort, List.cons_append, List.takeWhile_append_dropWhile]
                rw [hq, upTo_append]
              refine .ok (Marked.mark hname.cut (by decide) rfl hname.host ?_)
              rw [List.append_assoc, hrest]
              exact hname.input
          · exact .ok hbare

/-- User and password are marked twice when there is no at sign. -/
theorem markAuthority_follows {s p : Bytes} {pt : PartTable} {sc : Bytes}
    (h : Marked s idUser pt { scheme := sc } (lit "//" ++ p)) :
    Follows s idPath (parseAuthority { scheme := sc } p) (markAuthority s pt p) := by
  have hinput : sc ++ (lit "//" ++ p) = s := by
    rw [← h.input]
    simp [Parts.pieces]
  rw [parseAuthority, markAuthority, parseUserinfo, markUserinfo]
  cases h₁ : userinfoNcPctSet.parse p with
  | error ec => exact .error ec
  | ok p₁ =>
      dsimp only
      cases h₂ : userinfoPctSet.parse p₁ with
      | error ec => exact .error ec
      | ok p₂ =>
          obtain ⟨a, rfl, -, -⟩ := PctEncoding.parse_iff.mp h₁
          obtain ⟨b, rfl, -, -⟩ := PctEncoding.parse_iff.mp h₂
          dsimp only
          simp only [upTo_append]
          have huser : Marked s idPassword (mark s (b ++ p₂) pt idUser)
              { scheme := sc, user := lit "//" ++ a } (b ++ p₂) :=
            Marked.mark (u := { scheme := sc }) h.cut (by decide) rfl h.host
              (by rw [← hinput]; simp [Parts.pieces])
          have hpass : Marked s idHost (mark s p₂ (mark s (b ++ p₂) pt idUser) idPassword)
              { scheme := sc, user := lit "//" ++ a, password := b } p₂ :=
            Marked.mark huser.cut (by decide) rfl huser.host
              (by rw [List.append_assoc]; exact huser.input)
          cases hat : matchLiteral (lit "@") p₂ with
          | some p' =>
              obtain rfl := matchLiteral_iff.mp hat
              have hat' : Marked s idHost _
                  { scheme := sc, user := lit "//" ++ a, password := b ++ lit "@" } p' :=
                Marked.mark hpass.cut (by decide) rfl hpass.host
                  (by rw [← hpass.input]; simp [Parts.pieces])
              exact markHost_follows hat' rfl rfl
          | none =>
              -- the marks of user and password are overwritten
              have hagain : Marked s idPassword _
                  { scheme := sc, user := lit "//", password := b } (a ++ (b ++ p₂)) :=
                Marked.mark hpass.cut (by decide) rfl hpass.host
                  (by rw [← hinput]; simp [Parts.pieces])
              have hnone : Marked s idHost _
                  { scheme := sc, user := lit "//" } (a ++ (b ++ p₂)) :=
                Marked.mark (w := []) hagain.cut (by decide) rfl hagain.host
                  (by rw [List.append_nil]; exact hagain.input)
              exact markHost_follows hnone rfl rfl

/-! ### Path, query and fragment -/

/-- A mark of the path behind an authority, or behind a scheme. -/
theorem markPath_follows {s w q : Bytes} {pt : PartTable} {u : Parts}
    (h : Marked s idPath pt u (w ++ q)) :
    Marked s idQuery (mark s q pt idPath) { u with path := w } q :=
  Marked.mark (u := u) h.cut (by decide) rfl h.host
    (by rw [List.append_assoc]; exact h.input)

theorem markPart_follows {e : PctEncoding} {s p : Bytes} {pt : PartTable} {sc : Bytes}
    (h : Marked s idUser pt { scheme := sc } p) :
    Follows s idQuery (parsePart (parsePathFrom e) { scheme := sc } p)
      (markPart (parsePathFrom e) s pt p) := by
  rw [parsePart, markPart]
  cases hlit : matchLiteral (lit "//") p with
  | some p' =>
      obtain rfl := matchLiteral_iff.mp hlit
      have hauth := markAuthority_follows h
      dsimp only
      generalize hr : parseAuthority { scheme := sc } p' = r at hauth
      generalize markAuthority s pt p' = r' at hauth
      cases hauth with
      | error ec => exact .error ec
      | @ok u pt p₁ h₁ =>
          dsimp only
          cases hp : parsePathAbempty p₁ with
          | error ec => exact .error ec
          | ok p₂ =>
              obtain ⟨w, rfl, -⟩ := parseSegments_sound hp
              simp only [upTo_append]
              exact .ok (markPath_follows h₁)
  | none =>
      have hpath : Marked s idPath pt { scheme := sc } p := h.widen (by simp [Parts.pieces])
      dsimp only
      cases habs : parsePathAbsolute p with
      | ok q =>
          obtain ⟨w, rfl⟩ : ∃ w, p = w ++ q := by
            rcases parsePathAbsolute_sound habs with ⟨rfl, rfl⟩ | ⟨d, w, t, rfl, -⟩
            · exact ⟨_, (List.append_nil _).symm⟩
            · exact ⟨'/'.toUInt8 :: d :: (w ++ t), rfl⟩
          simp only [upTo_append]
          exact .ok (markPath_follows hpath)
      | error ec =>
          cases ec
          case noMatch =>
              dsimp only
              cases hthird : parsePathFrom e p with
              | ok q =>
                  obtain ⟨w, t, rfl, -⟩ := parsePathFrom_sound hthird
                  simp only [upTo_append]
                  exact .ok (markPath_follows hpath)
              | error ec =>
                  cases ec
                  case noMatch => exact .ok (hpath.widen (by simp [Parts.pieces]))
                  all_goals exact .error _
          all_goals exact .error _

/-- The query is marked where the parts have it. -/
theorem markQuery_follows {s p : Bytes} {pt : PartTable} {u : Parts}
    (h : Marked s idQuery pt u p) (hquery : u.query = []) :
    Follows s idFrag ((parseQuery p).map fun q => ({ u with query := upTo p q }, q))
      (markQuery s pt p) := by
  rw [markQuery]
  split
  · cases hp : parseQuery p with
    | error ec => exact .error ec
    | ok q =>
        obtain ⟨w, rfl, -⟩ := parseQuery_sound hp
        refine .ok (Marked.mark (u := u) (w := w) h.cut (by decide) ?_ h.host ?_)
        · rw [upTo_append]
          rfl
        · rw [List.append_assoc]
          exact h.input
  · next hhead =>
      have hp : parseQuery p = .ok p := by
        cases p with
        | nil => rfl
        | cons c q =>
            rw [parseQuery, if_neg (fun hc => hhead (congrArg some hc))]
      have hempty : upTo p p = [] := upTo_append [] p
      rw [hp]
      show Follows s idFrag (.ok ({ u with query := upTo p p }, p)) _
      rw [hempty, ← hquery]
      exact .ok (h.widen (by simp [Parts.pieces, hquery]))

/-- The fragment is marked where the parts have it. -/
theorem markFragment_follows {s p : Bytes} {pt : PartTable} {u : Parts}
    (h : Marked s idFrag pt u p) (hfrag : u.frag = []) :
    Follows s idEnd ((parseFragment p).map fun q => ({ u with frag := upTo p q }, q))
      (markFragment s pt p) := by
  rw [markFragment]
  split
  · next hhead =>
      cases p with
      | nil => cases hhead
      | cons c p =>
          obtain rfl := Option.some.inj hhead
          rw [parseFragment, if_pos rfl]
          cases hp : fragPctSet.parse p with
          | error ec => exact .error ec
          | ok q =>
              obtain ⟨w, rfl, -⟩ := PctEncoding.parse_iff.mp hp
              refine .ok (Marked.mark (u := u) (w := '#'.toUInt8 :: w) h.cut (by decide)
                ?_ h.host ?_)
              · rw [← List.cons_append, upTo_append]
                rfl
              · rw [List.append_assoc]
                exact h.input
  · next hhead =>
      have hp : parseFragment p = .ok p := by
        cases p with
        | nil => rfl
        | cons c q =>
            rw [parseFragment, if_neg (fun hc => hhead (congrArg some hc))]
      have hempty : upTo p p = [] := upTo_append [] p
      rw [hp]
      show Follows s idEnd (.ok ({ u with frag := upTo p p }, p)) _
      rw [hempty, ← hfrag]
      exact .ok (h.widen (by simp [Parts.pieces, hfrag]))

/-- The same error, or a table of the parts. -/
inductive Tabled : Except Error Parts → Except Error PartTable → Prop where
  | error (ec : Error) : Tabled (.error ec) (.error ec)
  | ok {u : Parts} {pt : PartTable} (hcut : SegmentedBuffer.Cut pt.offset u.pieces)
      (hhost : pt.host = u.hostType) : Tabled (.ok u) (.ok pt)

theorem markTail_tabled {s p : Bytes} {pt : PartTable} {u : Parts}
    (h : Marked s idQuery pt u p) (hquery : u.query = []) (hfrag : u.frag = []) :
    Tabled (parseUrlTail u p) (markTail s pt p) := by
  have hq := markQuery_follows h hquery
  rw [parseUrlTail, markTail]
  cases hp : parseQuery p with
  | error ec =>
      rw [hp] at hq
      generalize markQuery s pt p = r at hq
      cases hq
      exact .error ec
  | ok q =>
      rw [hp] at hq
      generalize markQuery s pt p = r at hq
      cases hq
      next pt₁ h₁ =>
      have hf := markFragment_follows h₁ hfrag
      dsimp only
      cases hp₂ : parseFragment q with
      | error ec =>
          rw [hp₂] at hf
          generalize markFragment s pt₁ q = r at hf
          cases hf
          exact .error ec
      | ok f =>
          rw [hp₂] at hf
          generalize markFragment s pt₁ q = r at hf
          cases hf
          next pt₂ h₂ =>
          cases f with
          | nil => exact .ok h₂.cut h₂.host
          | cons c f => exact .error _

theorem markPart_tabled {e : PctEncoding} {s p : Bytes} {pt : PartTable} {a : Bytes}
    (h : Marked s idUser pt { scheme := a } p) :
    Tabled
      (match parsePart (parsePathFrom e) { scheme := a } p with
        | .error ec => .error ec
        | .ok (u, q) => parseUrlTail u q)
      (match markPart (parsePathFrom e) s pt p with
        | .error ec => .error ec
        | .ok (pt, q) => markTail s pt q) := by
  have hpart := markPart_follows (e := e) h
  generalize hr : parsePart (parsePathFrom e) { scheme := a } p = r at hpart
  generalize markPart (parsePathFrom e) s pt p = r' at hpart
  cases hpart with
  | error ec => exact .error ec
  | ok h₁ =>
      obtain ⟨-, -, -, -, hquery, hfrag⟩ := parsePart_sound hr
      exact markTail_tabled h₁ hquery hfrag

/-- **THE TABLE OF A PARSED URL** is the table of its parts, and both parsers refuse the
    same strings. -/
theorem markUrl_tabled (s : Bytes) : Tabled (parseUrl s) (markUrl s) := by
  have hstart : SegmentedBuffer.Cut (PartTable.offset {}) (Parts.pieces {}) := by
    refine ⟨rfl, fun i hi => ?_⟩
    have hnil : ∀ w ∈ Parts.pieces {}, w = [] := by decide
    rw [hnil _ (List.getElem_mem hi)]
    rfl
  rw [parseUrl, markUrl]
  cases hsc : matchSchemeColon s with
  | none =>
      exact markPart_tabled (e := pcharNcPctSet) (a := []) ⟨hstart, rfl, rfl⟩
  | some p =>
      obtain ⟨a, rfl, -⟩ := matchSchemeColon_iff.mp hsc
      dsimp only
      rw [upTo_append]
      exact markPart_tabled (e := pcharPctSet)
        (Marked.mark (u := {}) hstart (by decide) rfl rfl (by simp [Parts.pieces]))

/-! ## The block -/

/-- What ends a call: an exception, a failed assertion, or an access outside of the
    block. -/
inductive Fault where
  | raised (e : Exn)
  | tooLarge
  | badAlloc
  | assertion
  | outOfBlock
  deriving DecidableEq

/-- An allocator at one moment: it gives a block with any contents, or throws; beyond
    `max_size` it throws. -/
structure Allocator where
  maxSize : Nat
  allocate : Nat → Option Bytes
  length_eq : ∀ {n : Nat} {b : Bytes}, allocate n = some b → b.length = n
  bounded : ∀ {n : Nat} {b : Bytes}, allocate n = some b → n ≤ maxSize

/-- `alloc_storage`: the pointer, `size_` and `cap_`. -/
structure Storage where
  block : Option Bytes := none
  size : Nat := 0
  cap : Nat := 0

/-- `url_base` over its storage. -/
structure Buffer where
  st : Storage := {}
  pt : PartTable := {}

/-- A call on a buffer. -/
abbrev BufferM := EStateM Fault Buffer

namespace Buffer

/-- `BOOST_ASSERT`. -/
def ensure (c : Prop) [Decidable c] : BufferM Unit :=
  if c then pure () else throw .assertion

/-- Bytes written through a pointer into the block. -/
def write (pos : Nat) (w : Bytes) : BufferM Unit := fun f =>
  match f.st.block.bind (SegmentedBuffer.store · pos w) with
  | some b => .ok () { f with st := ⟨some b, f.st.size, f.st.cap⟩ }
  | none => .error .outOfBlock f

/-- `memmove` in the block. -/
def memmove (dst src n : Nat) : BufferM Unit := fun f =>
  match f.st.block.bind (SegmentedBuffer.move · dst src n) with
  | some b => .ok () { f with st := ⟨some b, f.st.size, f.st.cap⟩ }
  | none => .error .outOfBlock f

def setTable (t : PartTable → PartTable) : BufferM Unit :=
  modify fun f => { f with pt := t f.pt }

/-- The capacity `alloc_storage::resize` asks for: twice the old one when that is
    enough and below `max_size`. -/
def nextCap (a : Allocator) (cap n : Nat) : Nat :=
  if cap < a.maxSize - cap then max (2 * cap) n else a.maxSize

/-- The bytes of the old block are copied into the new one. -/
def memcpy (p old : Bytes) (n : Nat) : Option Bytes :=
  if n ≤ old.length ∧ n ≤ p.length then some (old.take n ++ p.drop n) else none

/-- `alloc_storage::resize`. -/
def storageResize (a : Allocator) (n : Nat) : BufferM Unit := do
  let f ← get
  if n ≤ f.st.cap then
    modify fun f => { f with st := ⟨f.st.block, n, f.st.cap⟩ }
    write n [0]
  else
    let cap := nextCap a f.st.cap n
    match a.allocate (cap + 1) with
    | none => throw .badAlloc
    | some p =>
        match f.st.block with
        | none => modify fun f => { f with st := ⟨some p, n, cap⟩ }
        | some old =>
            match memcpy p old (f.st.size + 1) with
            | none => throw .outOfBlock
            | some p => modify fun f => { f with st := ⟨some p, n, cap⟩ }
        write n [0]

/-- `(std::size_t)-1`. -/
abbrev sizeMax : Nat := 2 ^ 64 - 1

def size (f : Buffer) : Nat := f.pt.offset idEnd

/-- `resize(id, new_size)`; the result is the pointer to the part. -/
def resize (a : Allocator) (id n : Nat) : BufferM Nat := do
  let f ← get
  let len := f.pt.length id
  if len = n then pure (f.pt.offset id)
  else if n ≤ len then
    let pos := f.pt.offset (id + 1)
    memmove (pos - (len - n)) pos (f.pt.offset idEnd - pos + 1)
    setTable (·.resize id n)
    pure (f.pt.offset id)
  else if sizeMax - f.size < n - len then throw .tooLarge
  else
    storageResize a (f.size - len + n)
    let pos := f.pt.offset (id + 1)
    memmove (pos + (n - len)) pos (f.pt.offset idEnd - pos + 1)
    setTable (·.resize id n)
    pure (f.pt.offset id)

/-- `resize(first, last, 0)`, the only length the setters give it: the parts become
    empty. -/
def clear (first last : Nat) : BufferM Unit := do
  let f ← get
  let len := f.pt.lengthRange first last
  if len = 0 then pure ()
  else
    let pos := f.pt.offset last
    memmove (pos - len) pos (f.pt.offset idEnd - pos + 1)
    setTable fun pt => { pt with offset := SegmentedBuffer.resizeRange pt.offset first last 0 }

/-- `parts::split`, with its assertions. -/
def split (id n : Nat) : BufferM Unit := do
  let f ← get
  ensure (id < idEnd - 1)
  ensure (n ≤ f.pt.length id)
  setTable (·.split id n)

/-! ### Setters -/

def hasAuthority (f : Buffer) : Bool := f.pt.lengthRange idUser idPath != 0

/-- An exception of a validating parser, raised before anything is written. -/
def raiseUnless (c : Bool) : BufferM Unit :=
  if c then pure () else throw (.raised .invalidPart)

def setScheme (a : Allocator) (s : Bytes) : BufferM Unit := do
  if s = [] then let _ ← resize a idScheme 0
  else
    raiseUnless (matchScheme s = some [])
    let dest ← resize a idScheme (s.length + 1)
    write dest s
    write (dest + s.length) (lit ":")

/-- The host is written, `n` bytes asked for; a URL without authority gets the two
    slashes first, in the part of the user, which is then split. -/
def putHost (a : Allocator) (n : Nat) (host : Bytes) (t : HostType) : BufferM Unit := do
  let f ← get
  if f.hasAuthority then
    let dest ← resize a idHost n
    write dest host
  else
    let dest ← resize a idUser (2 + n)
    write dest (lit "/")
    write (dest + 1) (lit "/")
    split idUser 2
    split idPassword 0
    write (dest + 2) host
  setTable fun pt => { pt with host := t }

/-- `encoded_size`. -/
def encodedSize (e : PctEncoding) (s : Bytes) : Nat :=
  s.foldl (fun n c => n + if e.isSpecial c then 3 else 1) 0

/-- The characters of some parts, through the pointer. -/
def get? (f : Buffer) (first last : Nat) : Option Bytes :=
  let n := f.pt.lengthRange first last
  if n = 0 then some []
  else f.st.block.bind fun b =>
    if f.pt.offset first + n ≤ b.length then
      some (SegmentedBuffer.slice b f.pt.offset first last)
    else none

def setHost (a : Allocator) (s : Bytes) : BufferM Unit := do
  if s = [] then
    let f ← get
    if f.pt.lengthRange idUser idHost = 2 ∧ f.pt.length idPort = 0 then
      ensure (f.get? idUser idPassword = some (lit "//"))
      clear idUser idPath
    else let _ ← resize a idHost 0
  else
    match parsePlainHostname s with
    | .none => throw .assertion
    | .name =>
        putHost a (encodedSize regNamePctSet s) (regNamePctSet.encode s) .name
    | t => putHost a s.length s t

def setEncodedHost (a : Allocator) (s : Bytes) : BufferM Unit := do
  if s = [] then setHost a s
  else
    match parseHostname s with
    | .ok (t, []) => putHost a s.length s t
    | _ => throw (.raised .invalidPart)

/-- `set_encoded_path`: the form of the path depends on authority and scheme. -/
def setEncodedPath (a : Allocator) (s : Bytes) : BufferM Unit := do
  if s = [] then let _ ← resize a idPath 0
  else
    let f ← get
    if f.hasAuthority then raiseUnless (accepts (parsePathAbempty s))
    else if s.head? = some '/'.toUInt8 then raiseUnless (accepts (parsePathAbsolute s))
    else if f.pt.length idScheme = 0 then raiseUnless (accepts (parsePathNoscheme s))
    else raiseUnless (accepts (parsePathRootless s))
    let dest ← resize a idPath s.length
    write dest s

def setQuery (a : Allocator) (s : Bytes) : BufferM Unit := do
  if s = [] then let _ ← resize a idQuery 0
  else
    let dest ← resize a idQuery (1 + encodedSize queryPctSet s)
    write dest (lit "?")
    write (dest + 1) (queryPctSet.encode s)

def setEncodedQuery (a : Allocator) (s : Bytes) : BufferM Unit := do
  if s = [] then let _ ← resize a idQuery 0
  else
    raiseUnless (acceptsQuery s)
    let dest ← resize a idQuery (1 + s.length)
    write dest (lit "?")
    write (dest + 1) s

/-- `set_encoded_url`: a table of its own is parsed before the storage is resized. -/
def setEncodedUrl (a : Allocator) (s : Bytes) : BufferM Unit := do
  if s = [] then
    let f ← get
    if f.st.block.isSome then clear idScheme idEnd
  else
    match markUrl s with
    | .error _ => throw (.raised .invalidPart)
    | .ok pt =>
        storageResize a s.length
        setTable fun _ => pt
        write 0 s

/-! ### Observers -/

/-- A string view of some parts, with the assertion of the observer. -/
def view (f : Buffer) (first last : Nat) (ok : Bytes → Bool) : Except Fault Bytes :=
  match f.get? first last with
  | none => .error .outOfBlock
  | some s => if ok s then .ok s else .error .assertion

def encodedUrl (f : Buffer) : Except Fault Bytes := f.view idScheme idEnd (fun _ => true)

def scheme (f : Buffer) : Except Fault Bytes :=
  (f.view idScheme idUser fun s => s.isEmpty || s.getLast? == some ':'.toUInt8).map
    List.dropLast

def encodedHost (f : Buffer) : Except Fault Bytes := f.view idHost idPort (fun _ => true)

def encodedPath (f : Buffer) : Except Fault Bytes := f.view idPath idQuery (fun _ => true)

def encodedQuery (f : Buffer) : Except Fault Bytes :=
  (f.view idQuery idFrag fun s => s.isEmpty || s.head? == some '?'.toUInt8).map
    (List.drop 1)

end Buffer

/-! ## Calls that return, calls that throw -/

section Calls

variable {α β : Type} {m : BufferM α} {k : α → BufferM β} {f f' : Buffer}

theorem bind_ok {x : α} (h : m f = .ok x f') : (m >>= k) f = k x f' := by
  show EStateM.bind m k f = _
  rw [EStateM.bind, h]

theorem bind_error {e : Fault} (h : m f = .error e f') : (m >>= k) f = .error e f' := by
  show EStateM.bind m k f = _
  rw [EStateM.bind, h]

theorem bind_get {k : Buffer → BufferM β} : ((get : BufferM Buffer) >>= k) f = k f f := rfl

theorem bind_modify {g : Buffer → Buffer} {k : Unit → BufferM β} :
    ((modify g : BufferM Unit) >>= k) f = k () (g f) := rfl

end Calls

namespace Buffer

/-- A call runs out of memory: the URL of `n` bytes that it would give is too long for a
    size, or it does not fit and the allocator gives no block for it. -/
inductive OutOfMemory (a : Allocator) (f : Buffer) (n : Nat) : Fault → Prop where
  | tooLarge (h : sizeMax < n) : OutOfMemory a f n .tooLarge
  | badAlloc (hcap : f.st.cap < n) (h : a.allocate (nextCap a f.st.cap n + 1) = none) :
      OutOfMemory a f n .badAlloc

/-! ## What the block holds -/

/-- The block and the table hold the pieces; `z` is the byte behind the last one, none
    when there is no block yet. -/
structure Keeps (f : Buffer) (ps : List Bytes) (z : Option UInt8) : Prop where
  cut : SegmentedBuffer.Cut f.pt.offset ps
  count : ps.length = idEnd
  size : ps.flatten.length ≤ f.st.size
  cap : f.st.size ≤ f.st.cap
  block : (f.st.block = none ∧ z = none ∧ f.st.cap = 0)
    ∨ ∃ b y, f.st.block = some b ∧ z = some y ∧ b.length = f.st.cap + 1
        ∧ ps.flatten ++ [y] <+: b

/-- The byte behind the last piece stays; a first block, which is asked for with one byte
    more than the `n` of the pieces, brings its first byte. -/
def Behind (a : Allocator) (n : Nat) (z z' : Option UInt8) : Prop :=
  z' = z ∨ (z = none ∧ ∃ b, a.allocate (n + 1) = some b ∧ z' = b.head?)

variable {f : Buffer} {ps : List Bytes} {z : Option UInt8}

/-- The last offset is the length of the URL. -/
theorem Keeps.end_eq (h : Keeps f ps z) : f.pt.offset idEnd = ps.flatten.length := by
  rw [← h.count, h.cut.offset (Nat.le_refl _), List.take_length]

/-- A buffer that holds something has a block. -/
theorem Keeps.some_block (h : Keeps f ps z) (hcap : 0 < f.st.cap) :
    ∃ b y, f.st.block = some b ∧ z = some y ∧ b.length = f.st.cap + 1
      ∧ SegmentedBuffer.Holds y b f.pt.offset ps := by
  rcases h.block with ⟨-, -, hzero⟩ | ⟨b, y, hb, hz, hlen, hpre⟩
  · omega
  · exact ⟨b, y, hb, hz, hlen, h.cut, hpre⟩

theorem Keeps.cap_pos (h : Keeps f ps z) {i : Nat} (hi : i < ps.length) (hne : ps[i] ≠ []) :
    0 < f.st.cap := by
  have hlen := (List.sublist_flatten_of_mem (List.getElem_mem hi)).length_le
  have hpos := List.length_pos_iff.mpr hne
  have := h.size
  have := h.cap
  omega

/-- **WRITING** over a part of a piece. -/
theorem write_keeps (h : Keeps f ps z) {i pos : Nat} (hid : i < ps.length)
    {x y r w : Bytes} (hpiece : ps[i] = x ++ y ++ r) (hw : w.length = y.length)
    (hne : y ≠ []) (hpos : pos = f.pt.offset i + x.length) :
    ∃ f', write pos w f = .ok () f' ∧ f'.pt = f.pt
      ∧ Keeps f' (ps.set i (x ++ w ++ r)) z := by
  have hfull : ps[i] ≠ [] := by
    rw [hpiece]
    simp [hne]
  obtain ⟨b, c, hb, hz, hlen, hholds⟩ := h.some_block (h.cap_pos hid hfull)
  obtain ⟨b', hstore, hlen', hholds'⟩ := SegmentedBuffer.holds_store hholds hid hpiece hw
  refine ⟨{ f with st := ⟨some b', f.st.size, f.st.cap⟩ }, ?_, rfl, hholds'.cut, ?_, ?_, h.cap,
    Or.inr ⟨b', c, rfl, hz, hlen'.trans hlen, hholds'.pieces⟩⟩
  · rw [write, hb, hpos]
    simp only [Option.bind_some, hstore]
  · rw [List.length_set]
    exact h.count
  · have hsame : (ps.set i (x ++ w ++ r)).flatten.length = ps.flatten.length := by
      have hend := hholds'.cut.offset (Nat.le_refl _)
      rw [List.take_length, List.length_set, h.count] at hend
      rw [← hend]
      exact h.end_eq
    rw [hsame]
    exact h.size

/-! ## The storage grows -/

/-- Copying the old bytes fits, and they stand at the front. -/
theorem memcpy_spec (p old : Bytes) {n : Nat} (hold : n ≤ old.length) (hp : n ≤ p.length) :
    ∃ b, memcpy p old n = some b ∧ b.length = p.length ∧ old.take n <+: b := by
  refine ⟨old.take n ++ p.drop n, if_pos ⟨hold, hp⟩, ?_, List.prefix_append _ _⟩
  rw [List.length_append, List.length_take, List.length_drop]
  omega

/-- An allocation that succeeds has the room asked for. -/
theorem le_nextCap {a : Allocator} {cap n : Nat} {p : Bytes}
    (h : a.allocate (nextCap a cap n + 1) = some p) : n ≤ nextCap a cap n := by
  have hmax := a.bounded h
  rw [nextCap] at hmax ⊢
  split at hmax
  · rw [if_pos ‹_›]
    exact Nat.le_max_right _ _
  · omega

/-- A first block has the size asked for. -/
theorem nextCap_zero {a : Allocator} {n m : Nat} {p : Bytes}
    (h : a.allocate (m + 1) = some p) : nextCap a 0 n = n := by
  have hmax := a.bounded h
  rw [nextCap, if_pos (by omega), Nat.mul_zero, Nat.zero_max]

/-- The terminator is written behind the bytes asked for. -/
theorem write_terminator (f : Buffer) {b : Bytes} {n cap : Nat}
    (hlen : b.length = cap + 1) (hn : n ≤ cap) :
    ∃ b', write n [0] { f with st := ⟨some b, n, cap⟩ }
        = .ok () { f with st := ⟨some b', n, cap⟩ }
      ∧ b'.length = cap + 1 ∧ b'[n]? = some 0 ∧ ∀ x, x <+: b → x.length ≤ n → x <+: b' := by
  have hroom : n + [(0 : UInt8)].length ≤ b.length := by
    rw [hlen]
    exact Nat.succ_le_succ hn
  have hstore : ∃ b', SegmentedBuffer.store b n [0] = some b' := by
    rw [SegmentedBuffer.store, if_pos hroom]
    exact ⟨_, rfl⟩
  obtain ⟨b', hstore⟩ := hstore
  refine ⟨b', ?_, (SegmentedBuffer.store_length hstore).trans hlen, ?_, ?_⟩
  · rw [write]
    simp only [Option.bind_some, hstore]
  · have hget := SegmentedBuffer.store_getElem hstore (i := 0) (by decide)
    rwa [Nat.add_zero] at hget
  · exact fun x hx hle => SegmentedBuffer.prefix_store hstore hx hle

/-- **THE STORAGE**: a resize throws and changes nothing, or leaves a block with room for
    `n` bytes and a terminator behind them.  Pieces that are shorter stay, with the byte
    behind them, which in a first block is whatever the allocator left there. -/
theorem storageResize_spec (a : Allocator) (h : Keeps f ps z) {n : Nat} (hn : 0 < n) :
    (∃ e, OutOfMemory a f n e ∧ storageResize a n f = .error e f)
    ∨ ∃ f' b, storageResize a n f = .ok () f' ∧ f'.pt = f.pt ∧ f'.st.size = n
        ∧ n ≤ f'.st.cap ∧ f'.st.block = some b ∧ b.length = f'.st.cap + 1
        ∧ b[n]? = some 0
        ∧ (ps.flatten.length < n →
            ∃ y, ps.flatten ++ [y] <+: b ∧ Behind a n z (some y)) := by
  have hsize := h.size
  have hcap := h.cap
  rw [storageResize, bind_get]
  by_cases hle : n ≤ f.st.cap
  · -- the block is large enough
    rw [if_pos hle]
    obtain ⟨b, y, hb, hz, hlen, hholds⟩ := h.some_block (by omega)
    obtain ⟨b', hwrite, hlen', hget, hkeep⟩ := write_terminator f hlen hle
    rw [bind_modify, hb]
    refine Or.inr ⟨_, b', hwrite, rfl, rfl, hle, rfl, hlen', hget, fun hlt => ?_⟩
    exact ⟨y, hkeep _ hholds.pieces (by simpa using hlt), Or.inl hz.symm⟩
  · rw [if_neg hle]
    dsimp only
    cases hal : a.allocate (nextCap a f.st.cap n + 1) with
    | none => exact Or.inl ⟨.badAlloc, .badAlloc (Nat.lt_of_not_le hle) hal, rfl⟩
    | some p =>
        have hplen := a.length_eq hal
        have hroom := le_nextCap hal
        refine Or.inr ?_
        dsimp only
        rcases h.block with ⟨hb, hz, hzero⟩ | ⟨old, y, hb, hz, hlen, hpre⟩
        · -- the first block: its first byte is behind the empty pieces
          rw [hb]
          dsimp only
          obtain ⟨b', hwrite, hlen', hget, hkeep⟩ := write_terminator f hplen hroom
          rw [bind_modify]
          refine ⟨_, b', hwrite, rfl, rfl, hroom, rfl, hlen', hget, fun hlt => ?_⟩
          have hnil : ps.flatten = [] := List.length_eq_zero_iff.mp (by omega)
          rw [hzero, nextCap_zero hal] at hal
          cases p with
          | nil => simp at hplen
          | cons y p =>
              refine ⟨y, ?_, Or.inr ⟨hz, _, hal, rfl⟩⟩
              rw [hnil]
              exact hkeep [y] ⟨p, rfl⟩ hn
        · -- a larger block takes over what the old one held
          rw [hb]
          dsimp only
          obtain ⟨b, hcopy, hblen, hpart⟩ := memcpy_spec p old
            (n := f.st.size + 1) (by omega) (by omega)
          rw [hcopy]
          dsimp only
          obtain ⟨b', hwrite, hlen', hget, hkeep⟩ :=
            write_terminator f (hblen.trans hplen) hroom
          rw [bind_modify]
          refine ⟨_, b', hwrite, rfl, rfl, hroom, rfl, hlen', hget, fun hlt => ?_⟩
          have hold : ps.flatten ++ [y] <+: old.take (f.st.size + 1) :=
            List.prefix_take_iff.mpr ⟨hpre, by simpa using hsize⟩
          exact ⟨y, hkeep _ (hold.trans hpart) (by simpa using hlt), Or.inl hz.symm⟩

/-! ## A part gets a new length -/

theorem resize_offset_self (t : Nat → Nat) (i n : Nat) :
    SegmentedBuffer.resize t i n i = t i := by
  rw [SegmentedBuffer.resize]
  split <;> exact if_neg (Nat.lt_irrefl i)

/-- The end of the table after a part got a new length. -/
theorem resize_offset_end {t : Nat → Nat} {i n last : Nat} (hid : i < last)
    (hlen : SegmentedBuffer.length t i ≤ t last) :
    SegmentedBuffer.resize t i n last = t last - SegmentedBuffer.length t i + n := by
  rw [SegmentedBuffer.resize]
  split <;> simp only [if_pos hid] <;> omega

theorem length_le_offset {t : Nat → Nat} (h : SegmentedBuffer.Cut t ps) {i : Nat}
    (hid : i < ps.length) : SegmentedBuffer.length t i ≤ t ps.length := by
  have hnext : t (i + 1) ≤ t ps.length := h.mono hid (Nat.le_refl _)
  rw [SegmentedBuffer.length]
  omega

/-- The move and the new table, once there is room. -/
theorem moved_spec {b : Bytes} {y : UInt8} {i n : Nat}
    (h : SegmentedBuffer.Holds y b f.pt.offset ps) (hcount : ps.length = idEnd)
    (hb : f.st.block = some b) (hlen : b.length = f.st.cap + 1) (hid : i < ps.length)
    (hsize : f.pt.offset idEnd - f.pt.length i + n ≤ f.st.size)
    (hcap : f.st.size ≤ f.st.cap) :
    ∃ f' gap, (do
        memmove (f.pt.offset i + n) (f.pt.offset (i + 1))
          (f.pt.offset idEnd - f.pt.offset (i + 1) + 1)
        setTable (·.resize i n)
        pure (f.pt.offset i) : BufferM Nat) f = .ok (f'.pt.offset i) f'
      ∧ gap.length = n ∧ Keeps f' (ps.set i gap) (some y) ∧ f'.pt.host = f.pt.host := by
  have hle := length_le_offset h.cut hid
  have hnext : f.pt.offset (i + 1) ≤ f.pt.offset ps.length :=
    h.cut.mono hid (Nat.le_refl _)
  have hstart : f.pt.offset i ≤ f.pt.offset (i + 1) := h.cut.mono (Nat.le_succ i) hid
  have hlength : f.pt.length i = f.pt.offset (i + 1) - f.pt.offset i := rfl
  rw [hcount] at hle hnext
  obtain ⟨gap, b', hgap, hlen', hmove, hholds⟩ :=
    SegmentedBuffer.holds_resize (n := n) h hid (by rw [hcount]; omega)
  rw [hcount] at hmove
  have hmem : memmove (f.pt.offset i + n) (f.pt.offset (i + 1))
      (f.pt.offset idEnd - f.pt.offset (i + 1) + 1) f
        = .ok () { f with st := ⟨some b', f.st.size, f.st.cap⟩ } := by
    rw [memmove, hb]
    simp only [Option.bind_some, hmove]
  refine ⟨⟨⟨some b', f.st.size, f.st.cap⟩, f.pt.resize i n⟩, gap, ?_, hgap,
    ⟨hholds.cut, ?_, ?_, hcap, Or.inr ⟨b', y, rfl, rfl, hlen'.trans hlen, hholds.pieces⟩⟩,
    rfl⟩
  · rw [bind_ok hmem, setTable, bind_modify]
    show EStateM.Result.ok (f.pt.offset i) _
      = EStateM.Result.ok (SegmentedBuffer.resize f.pt.offset i n i) _
    rw [resize_offset_self]
  · rw [List.length_set, hcount]
  · have hend := hholds.cut.offset (Nat.le_refl _)
    rw [List.take_length, List.length_set, hcount,
      resize_offset_end (by rw [← hcount]; exact hid) hle] at hend
    rw [← hend]
    exact hsize

/-- **RESIZING A PART** runs out of memory and changes nothing, or leaves room of the new
    length for the part and all the others as they were. -/
theorem resize_spec (a : Allocator) (h : Keeps f ps z) {i : Nat} (hid : i < ps.length)
    (n : Nat) :
    (∃ e, OutOfMemory a f (f.size - f.pt.length i + n) e ∧ resize a i n f = .error e f)
    ∨ ∃ f' gap z', resize a i n f = .ok (f'.pt.offset i) f' ∧ gap.length = n
        ∧ Keeps f' (ps.set i gap) z' ∧ f'.pt.host = f.pt.host
        ∧ Behind a (f.size - f.pt.length i + n) z z' := by
  have hlen := h.cut.length_eq hid
  have hle := length_le_offset h.cut hid
  have hnext : f.pt.offset (i + 1) ≤ f.pt.offset ps.length :=
    h.cut.mono hid (Nat.le_refl _)
  have hend := h.end_eq
  have hsize := h.size
  have hfirst : f.pt.offset i ≤ f.pt.offset (i + 1) := h.cut.mono (Nat.le_succ i) hid
  have hlength : f.pt.length i = f.pt.offset (i + 1) - f.pt.offset i := rfl
  rw [h.count] at hle hnext
  rw [resize, bind_get]
  by_cases heq : f.pt.length i = n
  · rw [if_pos heq]
    refine Or.inr ⟨f, ps[i], z, rfl, hlen.symm.trans heq, ?_, rfl, Or.inl rfl⟩
    rw [List.set_getElem_self]
    exact h
  · rw [if_neg heq]
    by_cases hshrink : n ≤ f.pt.length i
    · -- the part shrinks: the block stays
      rw [if_pos hshrink]
      have hne : ps[i] ≠ [] := by
        intro hnil
        have hzero : f.pt.length i = 0 := by
          rw [PartTable.length, hlen, hnil, List.length_nil]
        omega
      obtain ⟨b, y, hb, hz, hblen, hholds⟩ := h.some_block (h.cap_pos hid hne)
      obtain ⟨f', gap, hok, hgap, hkeeps, hhost⟩ := moved_spec (n := n) hholds h.count hb
        hblen hid (by omega) h.cap
      have hdst : f.pt.offset (i + 1) - (f.pt.length i - n) = f.pt.offset i + n := by
        omega
      rw [← hdst] at hok
      exact Or.inr ⟨f', gap, z, hok, hgap, hz ▸ hkeeps, hhost, Or.inl rfl⟩
    · rw [if_neg hshrink]
      by_cases hlarge : sizeMax - f.size < n - f.pt.length i
      · rw [if_pos hlarge]
        rw [size] at hlarge
        exact Or.inl ⟨.tooLarge, .tooLarge (by rw [size]; omega), rfl⟩
      · rw [if_neg hlarge]
        have hgrow : ps.flatten.length < f.size - f.pt.length i + n := by
          rw [size, hend]
          rw [hend] at hle
          have : f.pt.length i ≤ ps.flatten.length := hle
          omega
        rcases storageResize_spec a h (n := f.size - f.pt.length i + n) (by omega) with
          ⟨e, he, hfail⟩ | ⟨f₁, b, hok₁, hpt, hsize₁, hcap₁, hb, hblen, -, hkeep⟩
        · exact Or.inl ⟨e, he, bind_error hfail⟩
        · obtain ⟨y, hpre, hbehind⟩ := hkeep hgrow
          have hcut : SegmentedBuffer.Cut f₁.pt.offset ps := hpt.symm ▸ h.cut
          obtain ⟨f', gap, hok, hgap, hkeeps, hhost⟩ := moved_spec (n := n) ⟨hcut, hpre⟩
            h.count hb hblen hid (by rw [hsize₁, hpt]; exact Nat.le_refl _)
            (by rw [hsize₁]; exact hcap₁)
          have hdst : f.pt.offset (i + 1) + (n - f.pt.length i) = f.pt.offset i + n := by
            omega
          refine Or.inr ⟨f', gap, some y, ?_, hgap, hkeeps, by rw [hhost, hpt], hbehind⟩
          rw [bind_ok hok₁]
          rw [hpt, ← hdst] at hok
          exact hok

/-- Parts that are cleared become empty; nothing can fail. -/
theorem clear_spec (h : Keeps f ps z) {i j : Nat} (hlt : i < j)
    (hlast : j ≤ idEnd) :
    ∃ f', clear i j f = .ok () f'
      ∧ Keeps f' (SegmentedBuffer.replace ps i j []) z
      ∧ f'.pt.host = f.pt.host := by
  have hlast' : j ≤ ps.length := h.count.symm ▸ hlast
  have hrun := h.cut.mono (Nat.le_of_lt hlt) hlast'
  have htail := h.cut.mono hlast' (Nat.le_refl _)
  have hend := h.end_eq
  rw [h.count] at htail
  rw [clear, bind_get]
  by_cases hempty : f.pt.lengthRange i j = 0
  · rw [if_pos hempty]
    rw [PartTable.lengthRange] at hempty
    refine ⟨f, rfl, ?_, rfl⟩
    rw [SegmentedBuffer.replace_nil h.cut hlt hlast' (by omega)]
    exact h
  · rw [if_neg hempty]
    have hlen : f.pt.lengthRange i j = f.pt.offset j - f.pt.offset i := rfl
    have hsize := h.size
    have hcap := h.cap
    obtain ⟨b, y, hb, hz, hblen, hholds⟩ := h.some_block (by omega)
    have hroom := hholds.length_le
    rw [h.count] at hroom
    obtain ⟨gap, b', hgap, hlen', hmove, hholds'⟩ :=
      SegmentedBuffer.holds_resizeRange (n := 0) hholds hlt hlast' (by rw [h.count]; omega)
    obtain rfl := List.length_eq_zero_iff.mp hgap
    have hdst : f.pt.offset j - f.pt.lengthRange i j = f.pt.offset i + 0 := by
      omega
    have hmem : memmove (f.pt.offset j - f.pt.lengthRange i j) (f.pt.offset j)
        (f.pt.offset idEnd - f.pt.offset j + 1) f
          = .ok () { f with st := ⟨some b', f.st.size, f.st.cap⟩ } := by
      rw [h.count] at hmove
      rw [memmove, hb, hdst]
      simp only [Option.bind_some, hmove]
    refine ⟨⟨⟨some b', f.st.size, f.st.cap⟩, { f.pt with
        offset := SegmentedBuffer.resizeRange f.pt.offset i j 0 }⟩, ?_,
      ⟨hholds'.cut, ?_, ?_, hcap, Or.inr ⟨b', y, rfl, hz, hlen'.trans hblen, hholds'.pieces⟩⟩,
      rfl⟩
    · rw [bind_ok hmem]
      rfl
    · rw [SegmentedBuffer.length_replace ps hlt hlast', h.count]
    · have hle : (SegmentedBuffer.replace ps i j []).flatten.length
          ≤ ps.flatten.length := by
        have hsum := SegmentedBuffer.flatten_take_run ps (Nat.le_of_lt hlt)
        have hall : (ps.take j).flatten ++ (ps.drop j).flatten = ps.flatten := by
          rw [← List.flatten_append, List.take_append_drop]
        rw [SegmentedBuffer.flatten_replace, ← hall, ← hsum]
        simp only [List.length_append, List.length_nil]
        omega
      exact Nat.le_trans hle hsize

/-- A split keeps the bytes and passes its assertions. -/
theorem split_spec (h : Keeps f ps z) {i n : Nat} (hi : i < ps.length)
    (hnext : i + 1 < ps.length) {w r : Bytes} (hpiece : ps[i] = w ++ r)
    (hn : w.length = n) (hlast : i < idEnd - 1) :
    ∃ f', split i n f = .ok () f' ∧ f'.pt = f.pt.split i n
      ∧ Keeps f' ((ps.set i w).set (i + 1) (r ++ ps[i + 1])) z := by
  have hlen : f.pt.length i = (w ++ r).length := by
    rw [PartTable.length, h.cut.length_eq hi, hpiece]
  have hcut := SegmentedBuffer.cut_split h.cut hnext hi hpiece
  have hflat := SegmentedBuffer.flatten_split ps hnext hi hpiece
  rw [hn] at hcut
  refine ⟨{ f with pt := f.pt.split i n }, ?_, rfl, hcut, ?_, ?_, h.cap, ?_⟩
  · have hassert : n ≤ f.pt.length i := by
      rw [hlen, List.length_append, hn]
      exact Nat.le_add_right _ _
    rw [split, bind_get, ensure, if_pos hlast, ensure, if_pos hassert]
    rfl
  · rw [List.length_set, List.length_set, h.count]
  · rw [hflat]
    exact h.size
  · rw [hflat]
    exact h.block

/-! ## Setters on the block -/

/-- The buffer stands for the parts; `z` is the byte behind them. -/
structure Stands (f : Buffer) (u : Parts) (z : Option UInt8) : Prop where
  keeps : Keeps f u.pieces z
  host : f.pt.host = u.hostType

/-- A call ends well: out of memory for `u'` and unchanged, or with a buffer for `u'` and
    a byte behind it that `R` allows, given the length of the URL. -/
def Gives (a : Allocator) (R : Nat → Option UInt8 → Prop) (m : BufferM Unit) (f : Buffer)
    (u' : Parts) : Prop :=
  (∃ e, OutOfMemory a f u'.encodedUrl.length e ∧ m f = .error e f)
  ∨ ∃ f' z', m f = .ok () f' ∧ Stands f' u' z' ∧ R u'.encodedUrl.length z'

variable {u u' : Parts}

/-- The offsets are the lengths of the parts, added up. -/
theorem Keeps.lengths (h : Keeps f u.pieces z) :
    f.pt.offset idUser = u.scheme.length
    ∧ f.pt.offset idPassword = f.pt.offset idUser + u.user.length
    ∧ f.pt.offset idHost = f.pt.offset idPassword + u.password.length
    ∧ f.pt.offset idPort = f.pt.offset idHost + u.host.length
    ∧ f.pt.offset idPath = f.pt.offset idPort + u.port.length := by
  have hscheme := h.cut.next idScheme (show idScheme < idEnd by decide)
  rw [h.cut.start] at hscheme
  exact ⟨hscheme.trans (Nat.zero_add _), h.cut.next idUser (show idUser < idEnd by decide),
    h.cut.next idPassword (show idPassword < idEnd by decide),
    h.cut.next idHost (show idHost < idEnd by decide),
    h.cut.next idPort (show idPort < idEnd by decide)⟩

/-- The table knows whether there is an authority. -/
theorem hasAuthority_eq (h : Keeps f u.pieces z) : f.hasAuthority = u.hasAuthority := by
  obtain ⟨-, h₂, h₃, h₄, h₅⟩ := h.lengths
  have hlen : f.pt.lengthRange idUser idPath
      = (u.user ++ u.password ++ u.host ++ u.port).length := by
    simp only [PartTable.lengthRange, List.length_append]
    omega
  rw [hasAuthority, Parts.hasAuthority, hlen]
  cases u.user ++ u.password ++ u.host ++ u.port <;> rfl

/-- The length of the URL after a part got new bytes. -/
theorem length_set (h : Stands f u z) {i : Nat} (hid : i < idEnd) {w : Bytes}
    (hset : u'.pieces = u.pieces.set i w) :
    f.size - f.pt.length i + w.length = u'.encodedUrl.length := by
  have hid' : i < u.pieces.length := hid
  have hlen := length_le_offset h.keeps.cut hid'
  have hend := (SegmentedBuffer.cut_resize h.keeps.cut hid' w).offset (Nat.le_refl _)
  rw [List.take_length, List.length_set, resize_offset_end hid' hlen] at hend
  rw [← Parts.flatten_pieces, hset, ← hend]
  rfl

/-- A part that is cleared. -/
theorem resize_zero_gives (a : Allocator) (h : Stands f u z) {i : Nat} (hid : i < idEnd)
    (hset : u'.pieces = u.pieces.set i []) (hhost : u'.hostType = u.hostType) :
    Gives a (Behind a · z) (do let _ ← resize a i 0) f u' := by
  have hlen : f.size - f.pt.length i + 0 = u'.encodedUrl.length := length_set h hid hset
  rw [Gives, ← hlen]
  rcases resize_spec a h.keeps (i := i) hid 0 with
    ⟨e, he, hfail⟩ | ⟨f', gap, z', hok, hgap, hkeeps, hsame, hbehind⟩
  · exact Or.inl ⟨e, he, bind_error hfail⟩
  · obtain rfl := List.length_eq_zero_iff.mp hgap
    refine Or.inr ⟨f', z', bind_ok hok, ⟨hset ▸ hkeeps, ?_⟩, hbehind⟩
    rw [hsame, h.host, hhost]

/-- A part that is resized and written in one piece. -/
theorem resize_write_gives (a : Allocator) (h : Stands f u z) {i n : Nat} {w : Bytes}
    (hid : i < idEnd) (hw : w ≠ []) (hn : n = w.length)
    (hset : u'.pieces = u.pieces.set i w) (hhost : u'.hostType = u.hostType) :
    Gives a (Behind a · z) (do let dest ← resize a i n; write dest w) f u' := by
  subst hn
  rw [Gives, ← length_set h hid hset]
  rcases resize_spec a h.keeps (i := i) hid w.length with
    ⟨e, he, hfail⟩ | ⟨f', gap, z', hok, hgap, hkeeps, hsame, hbehind⟩
  · exact Or.inl ⟨e, he, bind_error hfail⟩
  · have hid' : i < (u.pieces.set i gap).length := by
      rw [List.length_set]
      exact hid
    have hne : gap ≠ [] := by
      rintro rfl
      exact hw (List.length_eq_zero_iff.mp hgap.symm)
    obtain ⟨f₂, hwrite, hpt, hkeeps₂⟩ := write_keeps (x := []) (y := gap) (r := []) hkeeps hid'
      (by rw [List.getElem_set_self, List.append_nil, List.nil_append]) hgap.symm hne rfl
    rw [List.append_nil, List.nil_append, List.set_set, ← hset] at hkeeps₂
    refine Or.inr ⟨f₂, z', ?_, ⟨hkeeps₂, ?_⟩, hbehind⟩
    · rw [bind_ok hok]
      exact hwrite
    · rw [hpt, hsame, h.host, hhost]

/-- Two writes behind each other into the front of a piece. -/
theorem write_two (h : Keeps f ps z) {i : Nat} (hid : i < ps.length) {v w : Bytes}
    (hv : v ≠ []) (hw : w ≠ []) {x y r : Bytes} (hpiece : ps[i] = x ++ y ++ r)
    (hx : v.length = x.length) (hy : w.length = y.length) :
    ∃ f₁ f', write (f.pt.offset i) v f = .ok () f₁
      ∧ write (f.pt.offset i + v.length) w f₁ = .ok () f' ∧ f'.pt = f.pt
      ∧ Keeps f' (ps.set i (v ++ w ++ r)) z := by
  have hne : ∀ {a b : Bytes}, a ≠ [] → a.length = b.length → b ≠ [] := by
    rintro a b ha hab rfl
    exact ha (List.length_eq_zero_iff.mp hab)
  obtain ⟨f₁, hwrite₁, hpt₁, hkeeps₁⟩ := write_keeps (x := []) (y := x) (r := y ++ r)
    (w := v) h hid (by rw [hpiece]; simp) hx (hne hv hx) rfl
  have hid' : i < (ps.set i ([] ++ v ++ (y ++ r))).length := by rwa [List.length_set]
  obtain ⟨f', hwrite₂, hpt₂, hkeeps₂⟩ := write_keeps (x := v) (y := y) (r := r)
    (w := w) hkeeps₁ hid'
    (by rw [List.getElem_set_self]; simp) hy (hne hw hy) (by rw [hpt₁])
  rw [List.set_set] at hkeeps₂
  exact ⟨f₁, f', hwrite₁, hwrite₂, hpt₂.trans hpt₁, hkeeps₂⟩

/-- A part that is resized and written in two pieces. -/
theorem resize_two_gives (a : Allocator) (h : Stands f u z) {i n : Nat} {v w : Bytes}
    (hid : i < idEnd) (hv : v ≠ []) (hw : w ≠ []) (hn : n = v.length + w.length)
    (hset : u'.pieces = u.pieces.set i (v ++ w)) (hhost : u'.hostType = u.hostType) :
    Gives a (Behind a · z) (do
      let dest ← resize a i n
      write dest v
      write (dest + v.length) w) f u' := by
  subst hn
  rw [Gives, ← length_set h hid hset, List.length_append]
  rcases resize_spec a h.keeps (i := i) hid (v.length + w.length) with
    ⟨e, he, hfail⟩ | ⟨f', gap, z', hok, hgap, hkeeps, hsame, hbehind⟩
  · exact Or.inl ⟨e, he, bind_error hfail⟩
  · have hid' : i < (u.pieces.set i gap).length := by
      rw [List.length_set]
      exact hid
    obtain ⟨f₁, f₂, hwrite₁, hwrite₂, hpt, hkeeps₂⟩ := write_two (x := gap.take v.length)
      (y := gap.drop v.length) (r := []) hkeeps hid' hv hw
      (by rw [List.getElem_set_self, List.append_nil, List.take_append_drop])
      (by rw [List.length_take]; omega) (by rw [List.length_drop]; omega)
    rw [List.append_nil, List.set_set, ← hset] at hkeeps₂
    refine Or.inr ⟨f₂, z', ?_, ⟨hkeeps₂, ?_⟩, hbehind⟩
    · rw [bind_ok hok, bind_ok hwrite₁]
      exact hwrite₂
    · rw [hpt, hsame, h.host, hhost]

/-- The kind of the host is written last. -/
theorem Gives.setHost {a : Allocator} {R : Nat → Option UInt8 → Prop} {m : BufferM Unit}
    {t : HostType} (h : Gives a R m f u) :
    Gives a R (do m; setTable fun pt => { pt with host := t }) f { u with hostType := t } := by
  rcases h with ⟨e, he, hfail⟩ | ⟨f', z', hok, hstands, hbehind⟩
  · exact Or.inl ⟨e, he, bind_error hfail⟩
  · refine Or.inr ⟨{ f' with pt := { f'.pt with host := t } }, z', ?_, ⟨⟨hstands.keeps.cut,
      hstands.keeps.count, hstands.keeps.size, hstands.keeps.cap, hstands.keeps.block⟩, rfl⟩,
      hbehind⟩
    rw [bind_ok hok]
    rfl

/-- **THE TWO SLASHES** of a new authority are written into the part of the user, which
    is then split twice; the host is written behind them. -/
theorem addAuthority_gives (a : Allocator) (h : Stands f u z) (hu : u.hasAuthority = false)
    {n : Nat} {host : Bytes} (hhost : host ≠ []) (hn : n = host.length) :
    Gives a (Behind a · z) (do
      let dest ← resize a idUser (2 + n)
      write dest (lit "/")
      write (dest + 1) (lit "/")
      split idUser 2
      split idPassword 0
      write (dest + 2) host) f { u with user := lit "//", password := [], host := host } := by
  subst hn
  obtain ⟨hpw, hho, hpo⟩ : u.password = [] ∧ u.host = [] ∧ u.port = [] := by
    rw [Parts.hasAuthority, Bool.not_eq_false', List.isEmpty_iff] at hu
    simp only [List.append_eq_nil_iff] at hu
    exact ⟨hu.1.1.2, hu.1.2, hu.2⟩
  have hset : ({ u with user := lit "//" ++ host } : Parts).pieces
      = u.pieces.set idUser (lit "//" ++ host) := rfl
  have hlen : f.size - f.pt.length idUser + (2 + host.length)
      = ({ u with user := lit "//", password := [], host := host } : Parts).encodedUrl.length := by
    have hboth := length_set h (by decide : idUser < idEnd) hset
    rw [List.length_append] at hboth
    rw [show 2 + host.length = (lit "//").length + host.length from rfl, hboth]
    simp [Parts.encodedUrl, hpw, hho]
  rw [Gives, ← hlen]
  rcases resize_spec a h.keeps (i := idUser) (by decide : idUser < idEnd) (2 + host.length)
    with ⟨e, he, hfail⟩ | ⟨f₁, gap, z', hok, hgap, hkeeps₁, hsame, hbehind⟩
  · exact Or.inl ⟨e, he, bind_error hfail⟩
  · have hgap₁ : gap = gap.take 1 ++ (gap.drop 1).take 1 ++ gap.drop 2 := by
      have hdrop : gap.drop 2 = (gap.drop 1).drop 1 := by rw [List.drop_drop]
      rw [hdrop, List.append_assoc, List.take_append_drop, List.take_append_drop]
    have hone : (lit "/").length = 1 := rfl
    obtain ⟨f₂, f₃, hwrite₂, hwrite₃, hpt₃, hkeeps₃⟩ := write_two (v := lit "/")
      (w := lit "/") hkeeps₁ (by decide : idUser < idEnd) (by decide) (by decide)
      (x := gap.take 1) (y := (gap.drop 1).take 1) (r := gap.drop 2) hgap₁
      (by rw [hone, List.length_take, hgap]; omega)
      (by rw [hone, List.length_take, List.length_drop, hgap]; omega)
    have hrest : (gap.drop 2).length = host.length := by
      rw [List.length_drop, hgap]
      omega
    have hsplit : lit "/" ++ lit "/" = lit "//" := by decide
    rw [List.set_set, hsplit] at hkeeps₃
    obtain ⟨f₄, hok₄, hpt₄, hkeeps₄⟩ := split_spec (i := idUser) (n := 2) (w := lit "//")
      (r := gap.drop 2) hkeeps₃ (by decide : idUser < idEnd) (by decide : idPassword < idEnd)
      rfl rfl (by decide)
    obtain ⟨f₅, hok₅, hpt₅, hkeeps₅⟩ := split_spec (i := idPassword) (n := 0) (w := [])
      (r := gap.drop 2 ++ u.password) hkeeps₄ (by decide : idPassword < idEnd)
      (by decide : idHost < idEnd) rfl rfl (by decide)
    have hlast : f₁.pt.offset idUser + 2 = f₅.pt.offset idHost + ([] : Bytes).length := by
      have h₂ := hkeeps₅.cut.next idUser (show idUser < idEnd by decide)
      have h₃ := hkeeps₅.cut.next idPassword (show idPassword < idEnd by decide)
      have hfirst : f₅.pt.offset idUser = f₁.pt.offset idUser := by
        rw [hpt₅, hpt₄, hpt₃]
        rfl
      have h₂' : f₅.pt.offset idPassword = f₅.pt.offset idUser + 2 := h₂
      have h₃' : f₅.pt.offset idHost = f₅.pt.offset idPassword + 0 := h₃
      rw [List.length_nil, h₃', h₂', hfirst]
    obtain ⟨f₆, hok₆, hpt₆, hkeeps₆⟩ := write_keeps (i := idHost) (x := [])
      (y := gap.drop 2 ++ u.password ++ u.host) (r := []) (w := host) hkeeps₅
      (by decide : idHost < idEnd) (List.append_nil _).symm
      (by rw [hpw, hho, List.append_nil, List.append_nil, hrest])
      (by
        intro hnil
        rw [hpw, hho, List.append_nil, List.append_nil] at hnil
        rw [hnil] at hrest
        exact hhost (List.length_eq_zero_iff.mp hrest.symm))
      hlast
    refine Or.inr ⟨f₆, z', ?_, ⟨?_, ?_⟩, hbehind⟩
    · rw [bind_ok hok, bind_ok hwrite₂]
      have hwrite₃' : write (f₁.pt.offset idUser + 1) (lit "/") f₂ = .ok () f₃ := hwrite₃
      rw [bind_ok hwrite₃', bind_ok hok₄, bind_ok hok₅]
      exact hok₆
    · have hps : ({ u with user := lit "//", password := [], host := host } : Parts).pieces
          = [u.scheme, lit "//", [], [] ++ host ++ [], u.port, u.path, u.query, u.frag] := by
        rw [List.nil_append, List.append_nil]
        rfl
      rw [hps]
      exact hkeeps₆
    · rw [hpt₆, hpt₅, hpt₄]
      show f₃.pt.host = u.hostType
      rw [hpt₃, hsame, h.host]

/-- Writing a host into the buffer writes it into the parts. -/
theorem putHost_gives (a : Allocator) (h : Stands f u z) {n : Nat} {host : Bytes}
    {t : HostType} (hhost : host ≠ []) (hn : n = host.length) :
    Gives a (Behind a · z) (putHost a n host t) f (u.putHost host t) := by
  have hstart : putHost a n host t f
      = (if u.hasAuthority then (do
            (do let dest ← resize a idHost n; write dest host)
            setTable fun pt => { pt with host := t } : BufferM Unit)
          else (do
            (do
              let dest ← resize a idUser (2 + n)
              write dest (lit "/")
              write (dest + 1) (lit "/")
              split idUser 2
              split idPassword 0
              write (dest + 2) host)
            setTable fun pt => { pt with host := t })) f := by
    rw [putHost, bind_get, hasAuthority_eq h.keeps]
    split <;> simp only [bind_assoc]
  rw [Gives, hstart]
  cases hu : u.hasAuthority with
  | true =>
      rw [if_pos rfl, Parts.putHost, if_pos hu]
      have hwrite : Gives a (Behind a · z) (do let dest ← resize a idHost n; write dest host) f
          { u with host := host } := resize_write_gives a h (by decide) hhost hn rfl rfl
      exact hwrite.setHost
  | false =>
      rw [if_neg Bool.false_ne_true, Parts.putHost, if_neg (by rw [hu]; decide)]
      exact (addAuthority_gives a h hu hhost hn).setHost

/-- The size that is computed first is the size of the encoded text. -/
theorem encodedSize_eq (e : PctEncoding) (s : Bytes) :
    encodedSize e s = (e.encode s).length := by
  have hfold : ∀ n, s.foldl (fun n c => n + if e.isSpecial c then 3 else 1) n
      = n + (e.encode s).length := by
    induction s with
    | nil => exact fun n => rfl
    | cons c s ih =>
        intro n
        rw [List.foldl_cons, ih, PctEncoding.encode, PctEncoding.encode, List.flatMap_cons,
          List.length_append]
        split <;> simp [PctEncoding.escape] <;> omega
  rw [encodedSize, hfold, Nat.zero_add]

end Buffer

/-- Each part has the delimiters its observer asserts. -/
structure Parts.Delimited (u : Parts) : Prop where
  scheme : u.scheme = [] ∨ u.scheme.getLast? = some ':'.toUInt8
  authority : u.hasAuthority = false ∨ lit "//" <+: u.user
  query : u.query = [] ∨ u.query.head? = some '?'.toUInt8

theorem Parts.WellFormed.delimited {u : Parts} (h : u.WellFormed) : u.Delimited := by
  refine ⟨?_, ?_, ?_⟩
  · rcases h.scheme with hs | ⟨c, t, hs, -⟩
    · exact Or.inl hs
    · rw [hs]
      exact Or.inr (List.getLast?_concat ..)
  · rcases h.authority with ⟨h₁, h₂, h₃, h₄, -⟩ | ⟨hui, -⟩
    · rw [Parts.hasAuthority, h₁, h₂, h₃, h₄]
      exact Or.inl rfl
    · rcases hui with ⟨hu, -⟩ | ⟨a, b, hu, -⟩
      · exact Or.inr ⟨[], by rw [hu, List.append_nil]⟩
      · exact Or.inr ⟨a, hu.symm⟩
  · rcases h.query with hq | ⟨hq, -⟩
    · exact Or.inl hq
    · exact Or.inr hq

/-! ## Whole calls -/

/-- A setter with its argument. -/
inductive SetCall where
  | scheme (s : Bytes)
  | host (s : Bytes)
  | encodedHost (s : Bytes)
  | encodedPath (s : Bytes)
  | query (s : Bytes)
  | encodedQuery (s : Bytes)
  | encodedUrl (s : Bytes)

/-- What the setter does to the parts. -/
def Parts.call (u : Parts) : SetCall → Except Exn Parts
  | .scheme s => u.setScheme s
  | .host s => .ok (u.setHost s)
  | .encodedHost s => u.setEncodedHost s
  | .encodedPath s => u.setEncodedPath s
  | .query s => .ok (u.setQuery s)
  | .encodedQuery s => u.setEncodedQuery s
  | .encodedUrl s => u.setEncodedUrl s

namespace Buffer

/-- What the setter does to the buffer. -/
def call (a : Allocator) : SetCall → BufferM Unit
  | .scheme s => setScheme a s
  | .host s => setHost a s
  | .encodedHost s => setEncodedHost a s
  | .encodedPath s => setEncodedPath a s
  | .query s => setQuery a s
  | .encodedQuery s => setEncodedQuery a s
  | .encodedUrl s => setEncodedUrl a s

/-- A call that sets a whole URL. -/
def replacesUrl : SetCall → Bool
  | .encodedUrl s => !s.isEmpty
  | _ => false

/-- The byte behind the parts after a call that returned, given the length of the URL: a
    whole URL brings its terminator. -/
def After (a : Allocator) (c : SetCall) (z : Option UInt8) (n : Nat) (z' : Option UInt8) :
    Prop :=
  if replacesUrl c then z' = some 0 else Behind a n z z'

/-- **ONE CALL** raises what it raises on the parts and changes nothing, or runs out of
    memory and changes nothing, or does to the buffer what it does to the parts. -/
def Refines (a : Allocator) (c : SetCall) (m : BufferM Unit) (f : Buffer) (u : Parts)
    (z : Option UInt8) : Prop :=
  (∃ e, u.call c = .error e ∧ m f = .error (.raised e) f)
  ∨ ∃ u', u.call c = .ok u' ∧ u'.Delimited ∧ Gives a (After a c z) m f u'

variable {f : Buffer} {u u' : Parts} {z : Option UInt8}

theorem raiseUnless_bind {c : Bool} {k : Unit → BufferM Unit} :
    (raiseUnless c >>= k) f
      = if c then k () f else .error (.raised .invalidPart) f := by
  cases c <;> rfl

/-- Only what the call does on this buffer counts. -/
theorem Refines.congr {a : Allocator} {c : SetCall} {m m' : BufferM Unit} (heq : m f = m' f)
    (h : Refines a c m' f u z) : Refines a c m f u z := by
  simp only [Refines, Gives, heq]
  exact h

/-- `set_scheme` on the buffer is `set_scheme` on the parts. -/
theorem setScheme_refines (a : Allocator) (h : Stands f u z) (hd : u.Delimited) (s : Bytes) :
    Refines a (.scheme s) (setScheme a s) f u z := by
  rw [Refines, Parts.call, Parts.setScheme, setScheme]
  by_cases hs : s = []
  · rw [if_pos hs, if_pos hs]
    exact Or.inr ⟨_, rfl, ⟨Or.inl rfl, hd.authority, hd.query⟩,
      resize_zero_gives a h (i := idScheme) (by decide) rfl rfl⟩
  · rw [if_neg hs, if_neg hs, raiseUnless_bind]
    by_cases hm : matchScheme s = some []
    · rw [if_pos hm]
      refine Or.inr ⟨_, rfl, ⟨Or.inr (List.getLast?_concat ..), hd.authority, hd.query⟩, ?_⟩
      rw [Gives, raiseUnless_bind, if_pos (decide_eq_true hm)]
      exact resize_two_gives a h (i := idScheme) (by decide) hs (by decide) rfl rfl rfl
    · rw [if_neg hm, if_neg (by rw [decide_eq_false hm]; decide)]
      exact Or.inl ⟨_, rfl, rfl⟩

/-- A slice of the buffer is the parts of the slice. -/
theorem get_eq (h : Stands f u z) {first last : Nat} (hle : first ≤ last)
    (hlast : last ≤ idEnd) :
    f.get? first last = some ((u.pieces.take last).drop first).flatten := by
  have hlast' : last ≤ u.pieces.length := hlast
  have hfirst := h.keeps.cut.offset (Nat.le_trans hle hlast')
  have hsum := SegmentedBuffer.flatten_take_run u.pieces hle
  have hlen : f.pt.lengthRange first last
      = (((u.pieces.take last).drop first).flatten).length := by
    rw [PartTable.lengthRange, h.keeps.cut.offset hlast', hfirst, ← hsum, List.length_append,
      Nat.add_sub_cancel_left]
  have hmono := h.keeps.cut.mono hle hlast'
  have htail : f.pt.offset last ≤ f.pt.offset idEnd :=
    h.keeps.cut.mono hlast' (Nat.le_refl _)
  have hend := h.keeps.end_eq
  rw [get?]
  by_cases hzero : f.pt.lengthRange first last = 0
  · rw [if_pos hzero]
    rw [hlen] at hzero
    rw [List.length_eq_zero_iff.mp hzero]
  · rw [if_neg hzero]
    have hsize := h.keeps.size
    have hcap := h.keeps.cap
    have hrange : f.pt.lengthRange first last = f.pt.offset last - f.pt.offset first := rfl
    obtain ⟨b, y, hb, -, hblen, hholds⟩ := h.keeps.some_block (by omega)
    rw [hb, Option.bind_some, if_pos (by omega),
      SegmentedBuffer.holds_slice hholds hle hlast']

/-- The two slashes only: the assertion of `set_host` passes. -/
theorem user_slashes (hd : u.Delimited) (hlen : u.user.length + u.password.length = 2) :
    u.user = lit "//" ∧ u.password = [] := by
  rcases hd.authority with hnone | ⟨rest, hu⟩
  · rw [Parts.hasAuthority, Bool.not_eq_false', List.isEmpty_iff] at hnone
    simp only [List.append_eq_nil_iff] at hnone
    rw [hnone.1.1.1, hnone.1.1.2] at hlen
    cases hlen
  · have hrest : rest.length + u.password.length = 0 := by
      rw [← hu, List.length_append] at hlen
      have htwo : (lit "//").length = 2 := rfl
      omega
    have hnil : rest = [] := List.length_eq_zero_iff.mp (by omega)
    rw [← hu, hnil, List.append_nil]
    exact ⟨rfl, List.length_eq_zero_iff.mp (by omega)⟩

theorem putHost_delimited (hd : u.Delimited) (host : Bytes) (t : HostType) :
    (u.putHost host t).Delimited := by
  rw [Parts.putHost]
  split
  · next hu =>
      refine ⟨hd.scheme, ?_, hd.query⟩
      rcases hd.authority with hnone | hslash
      · rw [hu] at hnone
        cases hnone
      · exact Or.inr hslash
  · exact ⟨hd.scheme, Or.inr (List.prefix_refl _), hd.query⟩

theorem clearHost_delimited (hd : u.Delimited) : { u with host := [] }.Delimited := by
  refine ⟨hd.scheme, ?_, hd.query⟩
  rcases hd.authority with hnone | hslash
  · refine Or.inl ?_
    rw [Parts.hasAuthority, Bool.not_eq_false', List.isEmpty_iff] at hnone ⊢
    simp only [List.append_eq_nil_iff] at hnone ⊢
    exact ⟨⟨hnone.1.1, trivial⟩, hnone.2⟩
  · exact Or.inr hslash

/-- `set_host`, with its assertions. -/
theorem setHost_ends (a : Allocator) (h : Stands f u z) (hd : u.Delimited) (s : Bytes) :
    (u.setHost s).Delimited ∧ Gives a (Behind a · z) (setHost a s) f (u.setHost s) := by
  obtain ⟨-, h₂, h₃, h₄, h₅⟩ := h.keeps.lengths
  rw [Parts.setHost, setHost]
  by_cases hs : s = []
  · rw [if_pos hs, if_pos hs, Gives, bind_get]
    have hcond : (f.pt.lengthRange idUser idHost = 2 ∧ f.pt.length idPort = 0)
        ↔ (u.user.length + u.password.length = 2 ∧ u.port.length = 0) := by
      have hpo : f.pt.length idPort = u.port.length := by
        show f.pt.offset idPath - f.pt.offset idPort = _
        omega
      have hup : f.pt.lengthRange idUser idHost = u.user.length + u.password.length := by
        show f.pt.offset idHost - f.pt.offset idUser = _
        omega
      rw [hpo, hup]
    by_cases hc : u.user.length + u.password.length = 2 ∧ u.port.length = 0
    · -- only the two slashes are left: the authority goes
      obtain ⟨hu, hpw⟩ := user_slashes hd hc.1
      have hview : f.get? idUser idPassword = some (lit "//") := by
        rw [get_eq h (by decide) (by decide), ← hu]
        simp [Parts.pieces]
      obtain ⟨f', hok, hkeeps, hhost⟩ := clear_spec h.keeps (i := idUser)
        (j := idPath) (by decide) (by decide)
      rw [if_pos hc, if_pos (hcond.mpr hc), ensure, if_pos hview]
      exact ⟨⟨hd.scheme, Or.inl rfl, hd.query⟩,
        Or.inr ⟨f', z, hok, ⟨hkeeps, hhost.trans h.host⟩, Or.inl rfl⟩⟩
    · rw [if_neg hc, if_neg (mt hcond.mp hc)]
      exact ⟨clearHost_delimited hd, resize_zero_gives a h (i := idHost) (by decide) rfl rfl⟩
  · rw [if_neg hs, if_neg hs]
    have hplain : parsePlainHostname s ≠ .none := by
      rw [parsePlainHostname]
      repeat' split
      all_goals decide
    have henc : regNamePctSet.encode s ≠ [] := fun hnil => hs (Parts.encode_eq_nil.mp hnil)
    cases ht : parsePlainHostname s with
    | none => exact absurd ht hplain
    | name =>
        exact ⟨putHost_delimited hd _ _, putHost_gives a h henc (encodedSize_eq _ _)⟩
    | ipv4 => exact ⟨putHost_delimited hd _ _, putHost_gives a h hs rfl⟩
    | ipv6 => exact ⟨putHost_delimited hd _ _, putHost_gives a h hs rfl⟩

/-- `set_encoded_host` on the buffer is that on the parts. -/
theorem setEncodedHost_refines (a : Allocator) (h : Stands f u z) (hd : u.Delimited)
    (s : Bytes) : Refines a (.encodedHost s) (setEncodedHost a s) f u z := by
  rw [Refines, Parts.call, Parts.setEncodedHost, setEncodedHost]
  by_cases hs : s = []
  · rw [if_pos hs, if_pos hs]
    obtain ⟨hd', hg⟩ := setHost_ends a h hd s
    exact Or.inr ⟨_, rfl, hd', hg⟩
  · rw [if_neg hs, if_neg hs]
    rcases parseHostname s with ec | ⟨t, _ | ⟨c, q⟩⟩
    · exact Or.inl ⟨_, rfl, rfl⟩
    · exact Or.inr ⟨_, rfl, putHost_delimited hd s t, putHost_gives a h hs rfl⟩
    · exact Or.inl ⟨_, rfl, rfl⟩

/-- `set_encoded_path` on the buffer is that on the parts. -/
theorem setEncodedPath_refines (a : Allocator) (h : Stands f u z) (hd : u.Delimited)
    (s : Bytes) : Refines a (.encodedPath s) (setEncodedPath a s) f u z := by
  by_cases hs : s = []
  · rw [Refines, Parts.call, Parts.setEncodedPath, setEncodedPath, if_pos hs, if_pos hs]
    exact Or.inr ⟨_, rfl, ⟨hd.scheme, hd.authority, hd.query⟩,
      resize_zero_gives a h (i := idPath) (by decide) rfl rfl⟩
  · have hscheme : f.pt.length idScheme = u.scheme.length := h.keeps.cut.length_eq
      (show idScheme < idEnd by decide)
    have hform : setEncodedPath a s f = (do
        raiseUnless (u.acceptsPath s)
        let dest ← resize a idPath s.length
        write dest s : BufferM Unit) f := by
      rw [setEncodedPath, if_neg hs, bind_get, hasAuthority_eq h.keeps, hscheme,
        Parts.acceptsPath]
      repeat' split
      all_goals rfl
    refine Refines.congr hform ?_
    rw [Refines, Parts.call, Parts.setEncodedPath, if_neg hs, raiseUnless_bind]
    cases hacc : u.acceptsPath s with
    | true =>
        exact Or.inr ⟨_, rfl, ⟨hd.scheme, hd.authority, hd.query⟩,
          resize_write_gives a h (i := idPath) (by decide) hs rfl rfl rfl⟩
    | false => exact Or.inl ⟨_, rfl, rfl⟩

/-- `set_query` on the buffer is `set_query` on the parts. -/
theorem setQuery_refines (a : Allocator) (h : Stands f u z) (hd : u.Delimited) (s : Bytes) :
    Refines a (.query s) (setQuery a s) f u z := by
  rw [Refines, Parts.call, Parts.setQuery, setQuery]
  by_cases hs : s = []
  · rw [if_pos hs, if_pos hs]
    exact Or.inr ⟨_, rfl, ⟨hd.scheme, hd.authority, Or.inl rfl⟩,
      resize_zero_gives a h (i := idQuery) (by decide) rfl rfl⟩
  · rw [if_neg hs, if_neg hs]
    have henc : queryPctSet.encode s ≠ [] := fun hnil => hs (Parts.encode_eq_nil.mp hnil)
    refine Or.inr ⟨_, rfl, ⟨hd.scheme, hd.authority, Or.inr rfl⟩, ?_⟩
    rw [encodedSize_eq]
    exact resize_two_gives a h (i := idQuery) (v := lit "?") (by decide) (by decide) henc rfl
      rfl rfl

/-- `set_encoded_query` on the buffer is that on the parts. -/
theorem setEncodedQuery_refines (a : Allocator) (h : Stands f u z) (hd : u.Delimited)
    (s : Bytes) : Refines a (.encodedQuery s) (setEncodedQuery a s) f u z := by
  rw [Refines, Parts.call, Parts.setEncodedQuery, setEncodedQuery]
  by_cases hs : s = []
  · rw [if_pos hs, if_pos hs]
    exact Or.inr ⟨_, rfl, ⟨hd.scheme, hd.authority, Or.inl rfl⟩,
      resize_zero_gives a h (i := idQuery) (by decide) rfl rfl⟩
  · rw [if_neg hs, if_neg hs, acceptsQuery]
    cases queryPctSet.decodedSize s with
    | ok n =>
        exact Or.inr ⟨_, rfl, ⟨hd.scheme, hd.authority, Or.inr rfl⟩,
          resize_two_gives a h (i := idQuery) (v := lit "?") (by decide) (by decide) hs rfl
            rfl rfl⟩
    | error ec => exact Or.inl ⟨_, rfl, rfl⟩

/-- Without a block all the parts are empty. -/
theorem parts_of_no_block (h : Stands f u z) (hb : f.st.block = none) :
    ({ hostType := u.hostType } : Parts) = u := by
  have hcap : f.st.cap = 0 := by
    rcases h.keeps.block with ⟨-, -, hcap⟩ | ⟨b, -, hsome, -⟩
    · exact hcap
    · rw [hb] at hsome
      cases hsome
  have hsize := h.keeps.size
  have hle := h.keeps.cap
  have hnil : u.encodedUrl = [] := by
    rw [← Parts.flatten_pieces]
    exact List.length_eq_zero_iff.mp (by omega)
  simp only [Parts.encodedUrl, List.append_eq_nil_iff] at hnil
  obtain ⟨⟨⟨⟨⟨⟨⟨h₁, h₂⟩, h₃⟩, h₄⟩, h₅⟩, h₆⟩, h₇⟩, h₈⟩ := hnil
  cases u
  simp_all

/-- **A WHOLE URL** is written over whatever the block held, in front of the terminator of
    the storage. -/
theorem write_url {b : Bytes} {pt : PartTable} {s : Bytes}
    (hcut : SegmentedBuffer.Cut pt.offset u.pieces) (hhost : pt.host = u.hostType)
    (hs : u.encodedUrl = s) (hb : f.st.block = some b) (hlen : b.length = f.st.cap + 1)
    (hsize : f.st.size = s.length) (hcap : s.length ≤ f.st.cap)
    (hzero : b[s.length]? = some 0) :
    ∃ f', (do setTable fun _ => pt; write 0 s : BufferM Unit) f = .ok () f'
      ∧ Stands f' u (some 0) := by
  have hroom : 0 + s.length ≤ b.length := by omega
  have hstore : SegmentedBuffer.store b 0 s = some (s ++ b.drop s.length) := by
    rw [SegmentedBuffer.store, if_pos hroom, List.take_zero, List.nil_append, Nat.zero_add]
  have hdrop : b.drop s.length = 0 :: b.drop (s.length + 1) := by
    obtain ⟨hlt, hget⟩ := List.getElem?_eq_some_iff.mp hzero
    rw [List.drop_eq_getElem_cons hlt, hget]
  have hflat : u.pieces.flatten = s := by rw [Parts.flatten_pieces, hs]
  refine ⟨⟨⟨some (s ++ b.drop s.length), f.st.size, f.st.cap⟩, pt⟩, ?_, ⟨hcut, rfl, ?_, ?_,
    Or.inr ⟨_, 0, rfl, rfl, ?_, ?_⟩⟩, hhost⟩
  · rw [setTable, bind_modify, write, hb]
    simp only [Option.bind_some, hstore]
  · rw [hflat]
    exact Nat.le_of_eq hsize.symm
  · show f.st.size ≤ f.st.cap
    rw [hsize]
    exact hcap
  · show _ = f.st.cap + 1
    rw [List.length_append, List.length_drop]
    omega
  · rw [hflat, hdrop]
    exact ⟨b.drop (s.length + 1), by simp⟩

/-- `set_encoded_url` on the buffer is that on the parts. -/
theorem setEncodedUrl_refines (a : Allocator) (h : Stands f u z) (s : Bytes) :
    Refines a (.encodedUrl s) (setEncodedUrl a s) f u z := by
  rw [Refines, Parts.call, Parts.setEncodedUrl, setEncodedUrl]
  by_cases hs : s = []
  · rw [if_pos hs, if_pos hs]
    have hafter : After a (.encodedUrl s) z = (Behind a · z) := by
      funext n z'
      rw [hs]
      rfl
    refine Or.inr ⟨_, rfl, ⟨Or.inl rfl, Or.inl rfl, Or.inl rfl⟩, ?_⟩
    rw [Gives, bind_get, hafter]
    cases hb : f.st.block with
    | none =>
        refine Or.inr ⟨f, z, rfl, ?_, Or.inl rfl⟩
        rw [parts_of_no_block h hb]
        exact h
    | some b =>
        obtain ⟨f', hok, hkeeps, hhost⟩ := clear_spec h.keeps (i := idScheme)
          (j := idEnd) (by decide) (by decide)
        exact Or.inr ⟨f', z, hok, ⟨hkeeps, hhost.trans h.host⟩, Or.inl rfl⟩
  · rw [if_neg hs, if_neg hs]
    have htab := markUrl_tabled s
    cases hp : parseUrl s with
    | error ec =>
        rw [hp] at htab
        generalize markUrl s = r at htab
        cases htab
        exact Or.inl ⟨_, rfl, rfl⟩
    | ok u' =>
        obtain ⟨hwf, henc⟩ := parseUrl_sound hp
        rw [hp] at htab
        generalize markUrl s = r at htab
        cases htab
        next pt hcut hhost =>
        refine Or.inr ⟨_, rfl, hwf.delimited, ?_⟩
        have hpos : 0 < s.length := List.length_pos_iff.mpr hs
        rcases storageResize_spec a h.keeps hpos with
          ⟨e, he, hfail⟩ | ⟨f₁, b, hok, -, hsize, hcap, hb, hblen, hzero, -⟩
        · exact Or.inl ⟨e, henc.symm ▸ he, bind_error hfail⟩
        · obtain ⟨f', hwrite, hstands⟩ := write_url hcut hhost henc hb hblen hsize hcap hzero
          have hafter : After a (.encodedUrl s) z u'.encodedUrl.length (some 0) := by
            have hurl : replacesUrl (.encodedUrl s) = true := by
              rw [replacesUrl]
              cases s with
              | nil => exact absurd rfl hs
              | cons c s => rfl
            rw [After, if_pos hurl]
          exact Or.inr ⟨f', some 0, (bind_ok hok).trans hwrite, hstands, hafter⟩

/-- **THE STEP**: every call refines its call on the parts. -/
theorem call_refines (a : Allocator) (c : SetCall) (h : Stands f u z) (hd : u.Delimited) :
    Refines a c (call a c) f u z := by
  cases c with
  | scheme s => exact setScheme_refines a h hd s
  | host s => exact Or.inr ⟨_, rfl, setHost_ends a h hd s⟩
  | encodedHost s => exact setEncodedHost_refines a h hd s
  | encodedPath s => exact setEncodedPath_refines a h hd s
  | query s => exact setQuery_refines a h hd s
  | encodedQuery s => exact setEncodedQuery_refines a h hd s
  | encodedUrl s => exact setEncodedUrl_refines a h s

/-! ## Runs -/

/-- How a call ended: it returned, or with a fault. -/
abbrev Outcome := Option Fault

/-- One call with the allocator as it is at that moment. -/
def step (f : Buffer) (c : Allocator × SetCall) : Outcome × Buffer :=
  match call c.1 c.2 f with
  | .ok _ f' => (none, f')
  | .error e f' => (some e, f')

/-- Calls one after another; a call that threw leaves the buffer it left. -/
def run : Buffer → List (Allocator × SetCall) → List Outcome × Buffer
  | f, [] => ([], f)
  | f, c :: cs => ((step f c).1 :: (run (step f c).2 cs).1, (run (step f c).2 cs).2)

/-- The same call on the parts, given the buffer before it, how it ended and the buffer it
    left: if it returned it returns, if it raised it raises, and if it ran out of memory it
    is left out.  A call that threw left the buffer as it was.  Nothing else happens. -/
inductive Replay (f : Buffer) (c : Allocator × SetCall) (u : Parts) :
    Outcome × Buffer → Parts → Prop where
  | returned {f' : Buffer} {u' : Parts} (h : u.call c.2 = .ok u') : Replay f c u (none, f') u'
  | raised {e : Exn} (h : u.call c.2 = .error e) : Replay f c u (some (.raised e), f) u
  | outOfMemory {u' : Parts} {e : Fault} (h : u.call c.2 = .ok u')
      (he : OutOfMemory c.1 f u'.encodedUrl.length e) : Replay f c u (some e, f) u

/-- The same calls on the parts. -/
inductive Replays : Buffer → Parts → List (Allocator × SetCall) → Parts → Prop where
  | nil (f : Buffer) (u : Parts) : Replays f u [] u
  | cons {f : Buffer} {u u' u'' : Parts} {c : Allocator × SetCall}
      {cs : List (Allocator × SetCall)} (h : Replay f c u (step f c) u')
      (hrest : Replays (step f c).2 u' cs u'') : Replays f u (c :: cs) u''

/-- The byte behind the parts after a step. -/
def AfterStep (c : Allocator × SetCall) (z : Option UInt8) (u' : Parts) (z' : Option UInt8) :
    Outcome → Prop
  | none => After c.1 c.2 z u'.encodedUrl.length z'
  | some _ => z' = z

/-- **ONE STEP** of a run. -/
theorem step_refines (c : Allocator × SetCall) (h : Stands f u z) (hd : u.Delimited) :
    ∃ u' z', Replay f c u (step f c) u' ∧ Stands (step f c).2 u' z' ∧ u'.Delimited
      ∧ AfterStep c z u' z' (step f c).1 := by
  rcases call_refines c.1 c.2 h hd with ⟨e, hraise, hcall⟩ | ⟨u', hret, hd', hgives⟩
  · have hstep : step f c = (some (.raised e), f) := by rw [step, hcall]
    rw [hstep]
    exact ⟨u, z, .raised hraise, h, hd, rfl⟩
  · rcases hgives with ⟨e, he, hcall⟩ | ⟨f', z', hcall, hstands, hafter⟩
    · have hstep : step f c = (some e, f) := by rw [step, hcall]
      rw [hstep]
      exact ⟨u, z, .outOfMemory hret he, h, hd, rfl⟩
    · have hstep : step f c = (none, f') := by rw [step, hcall]
      rw [hstep]
      exact ⟨u', z', .returned hret, hstands, hd', hafter⟩

/-- **RUNS** keep the parts and the delimiters. -/
theorem run_refines :
    ∀ (cs : List (Allocator × SetCall)) {f : Buffer} {u : Parts} {z : Option UInt8},
      Stands f u z → u.Delimited →
      ∃ u' z', Replays f u cs u' ∧ Stands (run f cs).2 u' z' ∧ u'.Delimited := by
  intro cs
  induction cs with
  | nil => exact fun {f u z} h hd => ⟨u, z, .nil f u, h, hd⟩
  | cons c cs ih =>
      intro f u z h hd
      obtain ⟨u₁, z₁, hreplay, hstands₁, hd₁, -⟩ := step_refines c h hd
      obtain ⟨u', z', hreplays, hstands, hd'⟩ := ih hstands₁ hd₁
      exact ⟨u', z', .cons hreplay hreplays, hstands, hd'⟩

/-- A fresh URL stands for no parts, without a block. -/
theorem fresh_stands : Stands {} {} none := by
  have hnil : ∀ w ∈ Parts.pieces {}, w = [] := by decide
  refine ⟨⟨⟨rfl, fun i hi => ?_⟩, rfl, Nat.le_refl _, Nat.le_refl _, Or.inl ⟨rfl, rfl, rfl⟩⟩,
    rfl⟩
  rw [hnil _ (List.getElem_mem hi)]
  rfl

theorem fresh_delimited : Parts.Delimited {} := ⟨Or.inl rfl, Or.inl rfl, Or.inl rfl⟩

/-! ### What a reader of the buffer sees -/

/-- Each of these observers reads inside of the block, passes its assertion and gives
    what the parts show. -/
structure Shows (f : Buffer) (u : Parts) : Prop where
  encodedUrl : f.encodedUrl = .ok u.encodedUrl
  scheme : f.scheme = .ok u.schemeStr
  encodedHost : f.encodedHost = .ok u.encodedHost
  encodedPath : f.encodedPath = .ok u.encodedPath
  encodedQuery : f.encodedQuery = .ok u.encodedQuery
  hasAuthority : f.hasAuthority = u.hasAuthority
  hostType : f.pt.host = u.hostType

/-- An observer of some pieces gives them, put together. -/
theorem view_eq (h : Stands f u z) {first last : Nat} (hle : first ≤ last)
    (hlast : last ≤ idEnd) {ok : Bytes → Bool} {s : Bytes}
    (hs : ((u.pieces.take last).drop first).flatten = s) (hok : ok s = true) :
    f.view first last ok = .ok s := by
  rw [view, get_eq h hle hlast, hs]
  exact if_pos hok

/-- A buffer that stands for parts shows what they show. -/
theorem Stands.shows (h : Stands f u z) (hd : u.Delimited) : Shows f u := by
  refine ⟨view_eq h (by decide) (by decide) (by simp [Parts.pieces, Parts.encodedUrl]) rfl, ?_,
    view_eq h (by decide) (by decide) (by simp [Parts.pieces, Parts.encodedHost]) rfl,
    view_eq h (by decide) (by decide) (by simp [Parts.pieces, Parts.encodedPath]) rfl, ?_,
    hasAuthority_eq h.keeps, h.host⟩
  · rw [scheme, view_eq h (s := u.scheme) (by decide) (by decide) (by simp [Parts.pieces])]
    · rfl
    · rcases hd.scheme with hs | hs
      · rw [hs]
        rfl
      · rw [hs]
        simp
  · rw [encodedQuery, view_eq h (s := u.query) (by decide) (by decide) (by simp [Parts.pieces])]
    · rfl
    · rcases hd.query with hq | hq
      · rw [hq]
        rfl
      · rw [hq]
        simp

/-- **THE BUFFER IS THE PARTS**: whatever of these setters are called, and whenever the
    allocator gives up, no access leaves the block and no assertion fails.  A call that
    throws changes nothing; for want of memory it throws only when the URL it would give
    is too long for a size, or does not fit and the allocator gives no block for it.  What
    a reader sees is the result of the calls on the parts. -/
theorem buffer_refines (cs : List (Allocator × SetCall)) :
    ∃ u, Replays {} {} cs u ∧ Shows (run {} cs).2 u := by
  obtain ⟨u, z, hreplay, hstands, hd⟩ := run_refines cs fresh_stands fresh_delimited
  exact ⟨u, hreplay, hstands.shows hd⟩

/-! ### The terminator -/

/-- The byte behind the URL, where a reader of `data()` looks for the terminator. -/
def terminator (f : Buffer) : Option UInt8 := f.st.block.bind (·[f.size]?)

/-- The byte behind the URL is the one that is kept beside the parts. -/
theorem Stands.terminator (h : Stands f u z) : f.terminator = z := by
  rw [Buffer.terminator, size, h.keeps.end_eq]
  rcases h.keeps.block with ⟨hb, hz, -⟩ | ⟨b, y, hb, hz, -, hpre⟩
  · rw [hb, hz]
    rfl
  · obtain ⟨rest, rfl⟩ := hpre
    rw [hb, hz, Option.bind_some]
    simp

/-- There is no block as long as there is no byte behind the URL. -/
theorem Stands.block_eq_none (h : Stands f u z) : f.st.block = none ↔ z = none := by
  rcases h.keeps.block with ⟨hb, hz, -⟩ | ⟨b, y, hb, hz, -, -⟩
  · exact ⟨fun _ => hz, fun _ => hb⟩
  · rw [hb, hz]
    exact ⟨fun h => (by cases h), fun h => (by cases h)⟩

theorem Stands.size_eq (h : Stands f u z) : f.size = u.encodedUrl.length := by
  rw [size, h.keeps.end_eq, Parts.flatten_pieces]

/-- A whole URL was set by one of the calls. -/
def urlWasSet (cs : List ((Allocator × SetCall) × Outcome)) : Bool :=
  cs.any fun c => replacesUrl c.1.2 && c.2.isNone

/-- One of the calls found no block and left one, with room for the URL it gave and one
    byte more; `y` is the first byte of the block as the allocator gave it. -/
def FirstByte (f : Buffer) (cs : List (Allocator × SetCall)) (y : Option UInt8) : Prop :=
  ∃ before c after, cs = before ++ c :: after
    ∧ (run f before).2.st.block = none ∧ (step (run f before).2 c).2.st.block ≠ none
    ∧ ∃ b, c.1.allocate ((step (run f before).2 c).2.size + 1) = some b ∧ y = b.head?

/-- The byte that a first block brings. -/
theorem head_allocate {a : Allocator} {n : Nat} {b : Bytes}
    (h : a.allocate (n + 1) = some b) : b.head? ≠ none := by
  have hlen := a.length_eq h
  intro hnil
  rw [List.head?_eq_none_iff.mp hnil] at hlen
  cases hlen

/-- A block stays, through any calls. -/
theorem block_of_run :
    ∀ (cs : List (Allocator × SetCall)) {f : Buffer} {u : Parts} {z : Option UInt8},
      Stands f u z → u.Delimited → (run f cs).2.st.block = none → z = none := by
  intro cs
  induction cs with
  | nil => exact fun {f u z} h _ hb => h.block_eq_none.mp hb
  | cons c cs ih =>
      intro f u z h hd hb
      obtain ⟨u₁, z₁, -, hstands₁, hd₁, hafter⟩ := step_refines c h hd
      have hz₁ : z₁ = none := ih hstands₁ hd₁ hb
      cases hout : (step f c).1 with
      | some e =>
          rw [hout] at hafter
          exact hafter.symm.trans hz₁
      | none =>
          rw [hout, AfterStep, After] at hafter
          split at hafter
          · rw [hz₁] at hafter
            cases hafter
          · rcases hafter with hsame | ⟨hnone, -⟩
            · exact hsame.symm.trans hz₁
            · exact hnone

/-- The first block of the rest of a run is the first of the whole run; there was none
    before. -/
theorem FirstByte.cons {cs : List (Allocator × SetCall)} {y : Option UInt8}
    (c : Allocator × SetCall) (h : Stands (step f c).2 u z) (hd : u.Delimited)
    (hfirst : FirstByte (step f c).2 cs y) : z = none ∧ FirstByte f (c :: cs) y := by
  obtain ⟨before, c', after, rfl, hnone, hsome, b, hb, hy⟩ := hfirst
  exact ⟨block_of_run before h hd hnone,
    c :: before, c', after, rfl, hnone, hsome, b, hb, hy⟩

/-- **THE BYTE BEHIND** along a run, from any buffer. -/
theorem run_terminator :
    ∀ (cs : List (Allocator × SetCall)) {f : Buffer} {u : Parts} {z : Option UInt8},
      Stands f u z → u.Delimited →
      if urlWasSet (cs.zip (run f cs).1) then terminator (run f cs).2 = some 0
      else terminator (run f cs).2 = z ∨ FirstByte f cs (terminator (run f cs).2) := by
  intro cs
  induction cs with
  | nil => exact fun {f u z} h _ => Or.inl h.terminator
  | cons c cs ih =>
      intro f u z h hd
      obtain ⟨u₁, z₁, -, hstands₁, hd₁, hafter⟩ := step_refines c h hd
      have hrest := ih hstands₁ hd₁
      have hset : urlWasSet ((c :: cs).zip (run f (c :: cs)).1)
          = (replacesUrl c.2 && (step f c).1.isNone
            || urlWasSet (cs.zip (run (step f c).2 cs).1)) := rfl
      rw [hset, run]
      cases hlater : urlWasSet (cs.zip (run (step f c).2 cs).1) with
      | true =>
          rw [hlater, if_pos rfl] at hrest
          rw [Bool.or_true, if_pos rfl]
          exact hrest
      | false =>
          rw [hlater, if_neg Bool.false_ne_true] at hrest
          rw [Bool.or_false]
          cases hout : (step f c).1 with
          | some e =>
              -- the call has changed nothing
              rw [hout] at hafter
              rw [Option.isNone_some, Bool.and_false, if_neg Bool.false_ne_true]
              rcases hrest with hz | hfirst
              · exact Or.inl (hz.trans hafter)
              · exact Or.inr (hfirst.cons c hstands₁ hd₁).2
          | none =>
              rw [hout, AfterStep, After] at hafter
              rw [Option.isNone_none, Bool.and_true]
              cases hurl : replacesUrl c.2 with
              | true =>
                  -- the terminator of the URL stays
                  rw [hurl, if_pos rfl] at hafter
                  rw [if_pos rfl]
                  rcases hrest with hz | hfirst
                  · exact hz.trans hafter
                  · rw [(hfirst.cons c hstands₁ hd₁).1] at hafter
                    cases hafter
              | false =>
                  rw [hurl, if_neg Bool.false_ne_true] at hafter
                  rw [if_neg Bool.false_ne_true]
                  rcases hrest with hz | hfirst
                  · rcases hafter with hsame | ⟨hnone, b, hb, hz₁⟩
                    · exact Or.inl (hz.trans hsame)
                    · -- this call brings the first block
                      have hsome : (step f c).2.st.block ≠ none := fun hblock =>
                        head_allocate hb (hz₁.symm.trans (hstands₁.block_eq_none.mp hblock))
                      refine Or.inr ⟨[], c, cs, rfl, h.block_eq_none.mpr hnone, hsome, b, ?_,
                        hz.trans hz₁⟩
                      rw [run, hstands₁.size_eq]
                      exact hb
                  · exact Or.inr (hfirst.cons c hstands₁ hd₁).2

/-- **THE TERMINATOR** is behind the URL once a whole URL was set.  Before that there is no
    block, or the byte there is the first byte of the first block as the allocator gave
    it, where one byte more than the URL of that moment was asked for: growing an empty
    buffer moves that byte over the terminator the storage has just written. -/
theorem terminator_spec (cs : List (Allocator × SetCall)) :
    if urlWasSet (cs.zip (run {} cs).1) then terminator (run {} cs).2 = some 0
    else (run {} cs).2.st.block = none ∨ FirstByte {} cs (terminator (run {} cs).2) := by
  obtain ⟨u, z, -, hstands, -⟩ := run_refines cs fresh_stands fresh_delimited
  have hlast := run_terminator cs fresh_stands fresh_delimited
  split
  · next hset =>
      rw [if_pos hset] at hlast
      exact hlast
  · next hset =>
      rw [if_neg hset] at hlast
      rcases hlast with hz | hfirst
      · exact Or.inl (hstands.block_eq_none.mpr (hstands.terminator.symm.trans hz))
      · exact Or.inr hfirst

/-- An allocator whose blocks are full of one byte. -/
def filled (y : UInt8) : Allocator where
  maxSize := 1000
  allocate := fun n => if n ≤ 1000 then some (List.replicate n y) else none
  length_eq := by
    intro n b h
    split at h
    · rw [← Option.some.inj h, List.length_replicate]
    · cases h
  bounded := by
    intro n b h
    split at h
    · assumption
    · cases h

example : terminator (run {} [(filled 255, .host (lit "a"))]).2 = some 255 := by
  decide +kernel

end Buffer

end BoostUrl
