import BookFilerHttp.ByteStringProofs

/-! # Framing: messages on a byte stream

    Messages are written one after another, each as a header and a body.  The
    receiver knows, for each message it waits for, whether it has a body at all;
    when it has, the header says how long the body is.

    A `HeaderCodec` is a self-delimiting form of headers: `take` reads one
    header off the front of a stream, and reads nothing but what `write` writes.
    The headline is `receive_wire_iff`: the receiver gets back the messages that
    were sent, with nothing left over, exactly when no message that must be
    without a body was written with one.

    `takeLit` and `takeNat` are the pieces of a codec for textual headers. -/

namespace Framing

open ByteString

/-- A self-delimiting form of headers.  Only headers with the property `Built`
    need to be readable. -/
structure HeaderCodec (H : Type) (Built : H → Prop) where
  write : H → Bytes
  take : Bytes → Option (H × Bytes)
  take_write : ∀ h rest, Built h → take (write h ++ rest) = some (h, rest)
  write_take : ∀ s h rest, take s = some (h, rest) → s = write h ++ rest

/-- A message as it is written.  `bodiless` is what the RECEIVER knows: this
    message is to have no body octets. -/
structure Sent (H : Type) where
  bodiless : Bool
  header : H
  body : Bytes

variable {H : Type} {Built : H → Prop}

/-- The octets of a list of headers and bodies. -/
def wire (C : HeaderCodec H Built) : List (H × Bytes) → Bytes
  | [] => []
  | (h, body) :: rest => C.write h ++ body ++ wire C rest

/-- What a sender puts on the stream: every message with its whole body. -/
def sent (ms : List (Sent H)) : List (H × Bytes) :=
  ms.map (fun m => (m.header, m.body))

/-- What the receiver ought to get. -/
def expected (ms : List (Sent H)) : List (H × Bytes) :=
  ms.map (fun m => (m.header, if m.bodiless then [] else m.body))

/-- The octets that follow a header. -/
def octets (bodyLength : H → Nat) (bodiless : Bool) (h : H) : Nat :=
  if bodiless then 0 else bodyLength h

/-- The receiver: one header for each message it waits for, then as many octets
    as the header says, none for a bodiless message.  The result holds the
    octets left over. -/
def receive (C : HeaderCodec H Built) (bodyLength : H → Nat) :
    List Bool → Bytes → Option (List (H × Bytes) × Bytes)
  | [], s => some ([], s)
  | bodiless :: qs, s =>
      match C.take s with
      | none => none
      | some (h, rest) =>
          if rest.length < octets bodyLength bodiless h then none
          else
            (receive C bodyLength qs (rest.drop (octets bodyLength bodiless h))).map
              (fun r => ((h, rest.take (octets bodyLength bodiless h)) :: r.1, r.2))

variable (C : HeaderCodec H Built) {bodyLength : H → Nat}

/-! ## What the receiver gets is on the stream -/

/-- What was received is what the wire began with. -/
theorem wire_receive :
    ∀ (qs : List Bool) {s left : Bytes} {out : List (H × Bytes)},
      receive C bodyLength qs s = some (out, left) → s = wire C out ++ left := by
  intro qs
  induction qs with
  | nil =>
      intro s left out h
      obtain ⟨rfl, rfl⟩ := Prod.mk.inj (Option.some.inj h)
      rfl
  | cons q qs ih =>
      intro s left out h
      rw [receive] at h
      split at h
      · cases h
      · next hd rest htake =>
          split at h
          · cases h
          · obtain ⟨r, hr, heq⟩ := Option.map_eq_some_iff.mp h
            obtain ⟨hout, hleft⟩ := Prod.mk.inj heq
            have hdrop := ih (show _ = some (r.1, r.2) from hr)
            -- what was taken and dropped of the rest is the rest
            rw [C.write_take s hd rest htake, ← hout, ← hleft, wire,
              List.append_assoc, List.append_assoc, ← hdrop, List.take_append_drop]

/-! ## When the receiver gets what was sent -/

/-- Every header of a list of messages is readable and announces its body. -/
def WellFramed (Built : H → Prop) (bodyLength : H → Nat) (ms : List (Sent H)) :
    Prop :=
  ∀ m ∈ ms, Built m.header ∧ bodyLength m.header = m.body.length

/-- With empty bodies where none is expected the receiver gets everything. -/
theorem receive_sent :
    ∀ (ms : List (Sent H)), WellFramed Built bodyLength ms →
      (∀ m ∈ ms, m.bodiless = true → m.body = []) →
      receive C bodyLength (ms.map (·.bodiless)) (wire C (sent ms))
        = some (expected ms, []) := by
  intro ms
  induction ms with
  | nil => exact fun _ _ => rfl
  | cons m rest ih =>
      intro hframed hempty
      obtain ⟨hbuilt, hlen⟩ := hframed m (List.mem_cons_self ..)
      have hrec := ih (fun x hx => hframed x (List.mem_cons_of_mem _ hx))
        (fun x hx => hempty x (List.mem_cons_of_mem _ hx))
      have hn : octets bodyLength m.bodiless m.header = m.body.length := by
        rw [octets]
        by_cases hb : m.bodiless = true
        · rw [if_pos hb, hempty m (List.mem_cons_self ..) hb]
          rfl
        · rw [if_neg hb, hlen]
      have hbody : (if m.bodiless then [] else m.body) = m.body := by
        by_cases hb : m.bodiless = true
        · rw [if_pos hb, hempty m (List.mem_cons_self ..) hb]
        · rw [if_neg hb]
      show receive C bodyLength (m.bodiless :: rest.map (·.bodiless))
          (C.write m.header ++ m.body ++ wire C (sent rest))
        = some ((m.header, if m.bodiless then [] else m.body) :: expected rest, [])
      -- the stream is long enough for the body
      have hlong : ¬ (m.body ++ wire C (sent rest)).length < m.body.length := by
        rw [List.length_append]
        omega
      rw [receive, List.append_assoc, C.take_write _ _ hbuilt]
      simp only [hn, if_neg hlong, List.drop_left, List.take_left, hrec, hbody]
      rfl

/-- The octets a bodiless message was written with. -/
def surplus (ms : List (Sent H)) : Nat :=
  (ms.map (fun m => if m.bodiless then m.body.length else 0)).sum

/-- What was sent is longer than what is expected by the surplus. -/
theorem wire_sent_length (ms : List (Sent H)) :
    (wire C (sent ms)).length = (wire C (expected ms)).length + surplus ms := by
  induction ms with
  | nil => rfl
  | cons m rest ih =>
      show (C.write m.header ++ m.body ++ wire C (sent rest)).length
        = (C.write m.header ++ (if m.bodiless then [] else m.body)
            ++ wire C (expected rest)).length
          + ((if m.bodiless then m.body.length else 0) + surplus rest)
      simp only [List.length_append, ih]
      cases m.bodiless with
      | true =>
          simp only [if_true, List.length_nil]
          omega
      | false =>
          simp only [Bool.false_eq_true, if_false]
          omega

/-- Without a surplus every message without a body is sent without one. -/
theorem surplus_eq_zero {ms : List (Sent H)} (h : surplus ms = 0) :
    ∀ m ∈ ms, m.bodiless = true → m.body = [] := by
  intro m hm hb
  have hzero := List.sum_eq_zero_iff_forall_eq_nat.mp h _ (List.mem_map_of_mem hm)
  rw [if_pos hb] at hzero
  exact List.length_eq_zero_iff.mp hzero

/-- **FRAMING**: the receiver gets back what was sent, with nothing left over,
    exactly when no bodiless message was written with a body. -/
theorem receive_wire_iff {ms : List (Sent H)}
    (hframed : WellFramed Built bodyLength ms) :
    receive C bodyLength (ms.map (·.bodiless)) (wire C (sent ms))
        = some (expected ms, [])
      ↔ ∀ m ∈ ms, m.bodiless = true → m.body = [] := by
  constructor
  · intro h
    -- what was received is all that was sent, so the lengths agree
    refine surplus_eq_zero ?_
    have hwire := wire_receive C _ h
    have hlen := wire_sent_length C ms
    rw [hwire, List.append_nil] at hlen
    omega
  · exact receive_sent C ms hframed

/-! ## Pieces of textual headers -/

/-- Skip a literal. -/
def takeLit (l s : Bytes) : Option Bytes :=
  if l.isPrefixOf s then some (s.drop l.length) else none

theorem takeLit_append (l rest : Bytes) : takeLit l (l ++ rest) = some rest := by
  rw [takeLit, if_pos (List.isPrefixOf_iff_prefix.mpr (List.prefix_append l rest)),
    List.drop_left]

/-- A number in decimal digits. -/
def decimal (n : Nat) : Bytes := (Nat.toDigits 10 n).map Char.toUInt8

/-- The number up to a separator; the separator is skipped. -/
def takeNat (sep : UInt8) (s : Bytes) : Option (Nat × Bytes) :=
  (findFirstOf sep s).map (fun pos =>
    (Nat.ofDigitChars 10 ((s.take pos).map (fun c => Char.ofNat c.toNat)) 0,
      s.drop (pos + 1)))

/-- Decimal digits survive the way through bytes. -/
theorem ofNat_toUInt8_of_isDigit {c : Char} (h : c.isDigit = true) :
    Char.ofNat c.toUInt8.toNat = c := by
  rw [Char.isDigit, Bool.and_eq_true, decide_eq_true_eq, decide_eq_true_eq] at h
  have hlo : 48 ≤ c.toNat := h.1
  have hhi : c.toNat ≤ 57 := h.2
  have hval : c.toUInt8.toNat = c.toNat := by
    show c.val.toNat % 256 = c.val.toNat
    exact Nat.mod_eq_of_lt (by have : c.val.toNat = c.toNat := rfl; omega)
  rw [hval, Char.ofNat_toNat]

theorem decimal_chars (n : Nat) :
    (decimal n).map (fun c => Char.ofNat c.toNat) = Nat.toDigits 10 n := by
  rw [decimal, List.map_map]
  refine (List.map_congr_left ?_).trans (List.map_id _)
  intro c hc
  exact ofNat_toUInt8_of_isDigit
    (Nat.isDigit_of_mem_toDigits (by decide) (by decide) hc)

/-- A byte that is not a decimal digit is in no decimal number. -/
theorem not_mem_decimal {sep : UInt8} (h : sep < 48 ∨ 57 < sep) (n : Nat) :
    sep ∉ decimal n := by
  intro hm
  obtain ⟨c, hc, hsep⟩ := List.mem_map.mp hm
  have hdig := Nat.isDigit_of_mem_toDigits (by decide) (by decide) hc
  rw [Char.isDigit, Bool.and_eq_true, decide_eq_true_eq, decide_eq_true_eq] at hdig
  have hlo : 48 ≤ c.val.toNat := hdig.1
  have hhi : c.val.toNat ≤ 57 := hdig.2
  have hval : sep.toNat = c.val.toNat := by
    rw [← hsep]
    show c.val.toNat % 256 = c.val.toNat
    exact Nat.mod_eq_of_lt (by omega)
  rcases h with hlt | hgt
  · have := UInt8.lt_iff_toNat_lt.mp hlt
    rw [hval] at this
    exact absurd this (Nat.not_lt.mpr hlo)
  · have := UInt8.lt_iff_toNat_lt.mp hgt
    rw [hval] at this
    exact absurd this (Nat.not_lt.mpr hhi)

/-- **NUMBERS ROUND TRIP**: a decimal number is read up to any separator that is
    not a digit. -/
theorem takeNat_decimal {sep : UInt8} (h : sep < 48 ∨ 57 < sep) (n : Nat)
    (rest : Bytes) :
    takeNat sep (decimal n ++ sep :: rest) = some (n, rest) := by
  have hrest : (decimal n ++ sep :: rest).drop ((decimal n).length + 1) = rest := by
    rw [List.drop_append, List.drop_of_length_le (Nat.le_succ _)]
    simp
  rw [takeNat, findFirstOf_append rest (not_mem_decimal h n)]
  show some (Nat.ofDigitChars 10
      (((decimal n ++ sep :: rest).take (decimal n).length).map _) 0, _) = _
  rw [List.take_left, decimal_chars, Nat.ofDigitChars_ten_toDigits, hrest]

end Framing
