import BookFilerHttp.FramingProofs
import BookFilerHttp.HttpRequestProofs

/-! # Responses: `ResponseImpl` and the response builders

    The response message with the fields that the server sets, the wrapper that
    a route handler is given, and the four places that build a response.  The
    four do the same with different status and body, so each is `fillResponse`
    at its own values.

    Every built response announces the body it carries (`fillResponse_built`,
    `fillResponse_length`).  `textCodec` is the textual form of the built
    headers, as an instance of the framing library. -/

namespace HttpResponse

open ByteString HttpRequest Framing

/-! ## The message -/

/-- Constants that the library supplies; their text depends on its release. -/
inductive LibraryString where
  | boostBeastVersion
  deriving DecidableEq

/-- The header of a response, with the fields the server sets. -/
structure ResponseHeader where
  result : Nat
  version : Nat
  server : Option LibraryString
  contentType : Option Bytes
  keepAlive : Bool
  contentLength : Option Nat
  deriving DecidableEq

structure ResponseBeast where
  header : ResponseHeader
  body : Bytes
  deriving DecidableEq

/-- A message just constructed: HTTP/1.1, status 200, no fields, no body. -/
def ResponseBeast.fresh : ResponseBeast := ⟨⟨200, 11, none, none, true, none⟩, []⟩

/-- Status, version, the two fixed fields, the keep-alive bit of the request and
    the body; `content_length` and `prepare_payload` announce the body. -/
def fillResponse (req : RequestBeast) (res : ResponseBeast) (status : Nat)
    (body : Bytes) : ResponseBeast :=
  { res with
    header := { res.header with
      result := status
      version := req.version
      server := some .boostBeastVersion
      contentType := some (lit "text/html")
      keepAlive := req.keepAlive
      contentLength := some body.length }
    body := body }

def badRequest (req : RequestBeast) (res : ResponseBeast) (what : Bytes) :
    ResponseBeast :=
  fillResponse req res 400 what

def notFound (req : RequestBeast) (res : ResponseBeast) (what : Bytes) :
    ResponseBeast :=
  fillResponse req res 404
    (lit "The resource '" ++ what ++ lit "' was not found.")

/-- A header as `fillResponse` leaves it. -/
def Built (h : ResponseHeader) : Prop :=
  h.server = some .boostBeastVersion ∧ h.contentType = some (lit "text/html")
    ∧ h.contentLength.isSome

/-- The length a header announces. -/
def bodyLength (h : ResponseHeader) : Nat := h.contentLength.getD 0

/-- A filled response has the fields the writer writes. -/
theorem fillResponse_built (req : RequestBeast) (res : ResponseBeast)
    (status : Nat) (body : Bytes) :
    Built (fillResponse req res status body).header :=
  ⟨rfl, rfl, rfl⟩

/-- The Content-Length of a filled response is the length of its body. -/
theorem fillResponse_length (req : RequestBeast) (res : ResponseBeast)
    (status : Nat) (body : Bytes) :
    bodyLength (fillResponse req res status body).header
      = (fillResponse req res status body).body.length := rfl

/-! ## The wrapper -/

structure ResponseImpl where
  resBeast : Option ResponseBeast
  writableEndedFlag : Bool
  bodyStr : Bytes

namespace ResponseImpl

def fresh : ResponseImpl := ⟨none, false, []⟩

def setResponse (r : ResponseImpl) (res : ResponseBeast) : Int × ResponseImpl :=
  (0, { r with resBeast := some res })

/-- `end`: store the body and mark the response as complete. -/
def end_ (r : ResponseImpl) (bodyStr : Bytes) : Int × ResponseImpl :=
  (0, { r with bodyStr := bodyStr, writableEndedFlag := true })

def writableEnded (r : ResponseImpl) : Bool := r.writableEndedFlag

def body (r : ResponseImpl) : Bytes := r.bodyStr

end ResponseImpl

/-! ## The textual form of a built header -/

def crlf : Bytes := [13, 10]

/-- The reason phrases of the four statuses. -/
def reason (status : Nat) : Bytes :=
  if status = 200 then lit "OK"
  else if status = 400 then lit "Bad Request"
  else if status = 404 then lit "Not Found"
  else lit "Internal Server Error"

/-- The Connection field: written only where the version's default differs from
    the keep-alive bit. -/
def connectionField (version : Nat) (keepAlive : Bool) : Bytes :=
  if version < 11 then
    if keepAlive then lit "Connection: keep-alive" ++ crlf else []
  else if keepAlive then [] else lit "Connection: close" ++ crlf

/-- The text between status line and Content-Length. -/
def fixedFields : Bytes :=
  lit "Server: Boost.Beast" ++ crlf ++ lit "Content-Type: text/html" ++ crlf

/-- Status line, fields and the empty line of a built header. -/
def writeHeader (h : ResponseHeader) : Bytes :=
  lit "HTTP/" ++ (decimal (h.version / 10) ++ '.'.toUInt8
    :: (decimal (h.version % 10) ++ ' '.toUInt8
    :: (decimal h.result ++ ' '.toUInt8
    :: (reason h.result ++ (crlf ++ (fixedFields
      ++ (connectionField h.version h.keepAlive
      ++ (lit "Content-Length: "
      ++ (decimal (bodyLength h) ++ 13 :: 10 :: crlf)))))))))

/-- Read the keep-alive bit back from the Connection field. -/
def takeConnection (version : Nat) (s : Bytes) : Bool × Bytes :=
  match takeLit (connectionField version (decide (version < 11))) s with
  | some rest => (decide (version < 11), rest)
  | none => (!decide (version < 11), s)

/-- Read one header and check that it is spelled as it would be written. -/
def takeHeader (s : Bytes) : Option (ResponseHeader × Bytes) := do
  let s₁ ← takeLit (lit "HTTP/") s
  let (major, s₂) ← takeNat '.'.toUInt8 s₁
  let (minor, s₃) ← takeNat ' '.toUInt8 s₂
  let (result, s₄) ← takeNat ' '.toUInt8 s₃
  let s₅ ← takeLit (reason result) s₄
  let s₆ ← takeLit crlf s₅
  let s₇ ← takeLit fixedFields s₆
  let (keepAlive, s₈) := takeConnection (major * 10 + minor) s₇
  let s₉ ← takeLit (lit "Content-Length: ") s₈
  let (length, s₁₀) ← takeNat 13 s₉
  let rest ← takeLit (10 :: crlf) s₁₀
  let h : ResponseHeader := ⟨result, major * 10 + minor, some .boostBeastVersion,
    some (lit "text/html"), keepAlive, some length⟩
  if writeHeader h ++ rest = s then some (h, rest) else none

/-- The Connection field cannot be mistaken for the field behind it. -/
theorem takeConnection_append (version : Nat) (keepAlive : Bool) (rest : Bytes) :
    takeConnection version
        (connectionField version keepAlive ++ (lit "Content-Length: " ++ rest))
      = (keepAlive, lit "Content-Length: " ++ rest) := by
  rw [takeConnection, connectionField, connectionField]
  by_cases hv : version < 11
  · rw [if_pos hv, if_pos hv, decide_eq_true hv]
    cases keepAlive with
    | true =>
        rw [if_pos rfl, takeLit_append]
    | false => rfl
  · rw [if_neg hv, if_neg hv, decide_eq_false hv]
    cases keepAlive with
    | true => rfl
    | false =>
        rw [if_neg Bool.false_ne_true, takeLit_append]

/-- A written header is read back, and the rest is left. -/
theorem takeHeader_write (h : ResponseHeader) (rest : Bytes) (hb : Built h) :
    takeHeader (writeHeader h ++ rest) = some (h, rest) := by
  obtain ⟨result, version, server, contentType, keepAlive, contentLength⟩ := h
  obtain ⟨hserver, htype, hlen⟩ := hb
  obtain ⟨n, hn⟩ := Option.isSome_iff_exists.mp hlen
  simp only at hserver htype hn
  subst hserver htype hn
  have hdot := @takeNat_decimal '.'.toUInt8 (Or.inl (by decide))
  have hspace := @takeNat_decimal ' '.toUInt8 (Or.inl (by decide))
  have hcr := @takeNat_decimal 13 (Or.inl (by decide))
  have hversion : version / 10 * 10 + version % 10 = version := Nat.div_add_mod' ..
  have hwrite : ∀ s, writeHeader ⟨result, version, some .boostBeastVersion,
      some (lit "text/html"), keepAlive, some n⟩ ++ rest = s → takeHeader s
        = some (⟨result, version, some .boostBeastVersion, some (lit "text/html"),
            keepAlive, some n⟩, rest) := by
    intro s hs
    have hshape : s = lit "HTTP/" ++ (decimal (version / 10) ++ '.'.toUInt8
        :: (decimal (version % 10) ++ ' '.toUInt8
        :: (decimal result ++ ' '.toUInt8
        :: (reason result ++ (crlf ++ (fixedFields
          ++ (connectionField version keepAlive
          ++ (lit "Content-Length: "
          ++ (decimal n ++ 13 :: ((10 :: crlf) ++ rest)))))))))) := by
      rw [← hs, writeHeader]
      simp only [bodyLength, Option.getD_some, List.append_assoc, List.cons_append]
    have hread : takeHeader s = if writeHeader ⟨result, version,
        some .boostBeastVersion, some (lit "text/html"), keepAlive, some n⟩ ++ rest = s
        then some (⟨result, version, some .boostBeastVersion,
          some (lit "text/html"), keepAlive, some n⟩, rest) else none := by
      rw [takeHeader]
      conv_lhs => rw [hshape]
      simp only [takeLit_append, hdot, hspace, hcr, takeConnection_append, hversion,
        Option.bind_eq_bind, Option.bind_some]
      rw [← hshape]
    rw [hread, if_pos hs]
  exact hwrite _ rfl

/-- What is read as a header is what its writer writes. -/
theorem writeHeader_take (s : Bytes) (h : ResponseHeader) (rest : Bytes)
    (htake : takeHeader s = some (h, rest)) : s = writeHeader h ++ rest := by
  rw [takeHeader] at htake
  simp only [Option.bind_eq_bind, Option.bind_eq_some_iff] at htake
  obtain ⟨s₁, -, x₂, -, x₃, -, x₄, -, s₅, -, s₆, -, s₇, -, s₉, -, x₁₀, -, s₁₁, -,
    hif⟩ := htake
  split at hif
  · next heq =>
      obtain ⟨rfl, rfl⟩ := Prod.mk.inj (Option.some.inj hif)
      exact heq.symm
  · cases hif

/-- The textual headers are self-delimiting. -/
def textCodec : HeaderCodec ResponseHeader Built where
  write := writeHeader
  take := takeHeader
  take_write := takeHeader_write
  write_take := writeHeader_take

end HttpResponse
