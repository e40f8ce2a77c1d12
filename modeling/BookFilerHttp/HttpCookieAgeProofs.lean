import BookFilerHttp.HttpCookieProofs
import BookFilerHttp.MachineIntProofs

/-! # The age of a cookie from its expiry

    The map constructor of `CookieImpl` turns an `expires` attribute into a maximum
    age: the difference of two time points in ticks of the system clock, cut down
    to whole seconds and then to an `int`.  The difference of two 64-bit values may
    have no value; the conversion to `int` always gives one, and one of its values,
    -1, stands for a session cookie.

    `keepsExpiry_iff` says for which instants the age that is stored means what the
    attribute said. -/

namespace HttpCookieAge

open ByteString MachineInt HttpCookie

/-- The system clock: ticks per second, the current time in ticks, and the second
    that `mktime` yields for an attribute.  Both times are representable. -/
structure SystemClock where
  ticks : Int
  now : Int
  mktime : Bytes → Int
  ticks_pos : 0 < ticks
  now_fits : Fits 64 now
  instant_fits : ∀ value, Fits 64 (mktime value * ticks)

/-- The ticks from now to the instant of an attribute. -/
def SystemClock.until_ (sc : SystemClock) (value : Bytes) : Int :=
  sc.mktime value * sc.ticks - sc.now

/-- `duration_cast<seconds>(tp - now).count()`; none when the difference has no
    value. -/
def SystemClock.seconds (sc : SystemClock) (value : Bytes) : Option Int :=
  (checked 64 (sc.until_ value)).map (fun d => d.tdiv sc.ticks)

/-- The clock of the reader is this system clock, wherever the difference has a
    value. -/
def Reads (clock : Clock) (sc : SystemClock) : Prop :=
  ∀ value s, sc.seconds value = some s → clock.secondsUntil value = s

/-- What the maximum age of an instant `d` ticks away should be: the whole seconds,
    or the largest `int`; not positive for an instant that is over; and never the
    mark of a session cookie. -/
structure MeansExpiry (ticks d maxAge : Int) : Prop where
  future : 0 ≤ d → maxAge = min (d / ticks) (2 ^ 31 - 1)
  past : d < 0 → maxAge ≤ 0
  not_session : maxAge ≠ -1

/-- Every cookie that is read from a map with this `expires` value and without
    `max-age` has an age that means the expiry. -/
def KeepsExpiry (sc : SystemClock) (value : Bytes) : Prop :=
  ∀ (clock : Clock) (nvc : OrdMap.Map Bytes Bytes) (r : CookieImpl), Reads clock sc →
    OrdMap.find (lit "expires") nvc = some value →
    OrdMap.find (lit "max-age") nvc = none →
    CookieImpl.ofMap clock nvc = some r → MeansExpiry sc.ticks (sc.until_ value) r.maxAge

/-- The condition: the difference has a value; an instant to come is less than 2^31
    seconds away, or such a number that the `int` is its largest value; an instant
    that is over is so many seconds ago that their negative as an `int` is not
    positive and not -1. -/
def Narrowable (ticks d : Int) : Prop :=
  Fits 64 d
    ∧ (0 ≤ d → d / ticks < 2 ^ 31 ∨ d / ticks % 2 ^ 32 = 2 ^ 31 - 1)
    ∧ (d < 0 → -d / ticks % 2 ^ 32 ≤ 2 ^ 31 ∧ -d / ticks % 2 ^ 32 ≠ 1)

/-! ## The stored age -/

/-- The age that is stored for an `expires` attribute. -/
theorem ofMap_maxAge {clock : Clock} {nvc : OrdMap.Map Bytes Bytes} {value : Bytes}
    {r : CookieImpl} (hexpires : OrdMap.find (lit "expires") nvc = some value)
    (hmaxAge : OrdMap.find (lit "max-age") nvc = none)
    (hr : CookieImpl.ofMap clock nvc = some r) :
    r.maxAge = narrow 32 (clock.secondsUntil value) := by
  have hset : ∀ (c : CookieImpl) (v : Bytes) (c' : CookieImpl),
      readPair clock c (lit "expires", v) = some c' →
      c'.maxAge = narrow 32 (clock.secondsUntil v) := by
    intro c v c' h
    have heq : some { c with maxAge := (clock.secondsUntil v).bmod (2 ^ 32) } = some c' := h
    rw [← Option.some.inj heq]
    rfl
  have hframe : ∀ p ∈ nvc.entries, p.1 ≠ lit "expires" → ∀ c c',
      readPair clock c p = some c' → c'.maxAge = c.maxAge := by
    intro p hp hne c c' h
    refine (readPair_frame h).maxAge ?_ hne
    -- there is no `max-age` entry
    intro hkey
    have hfind := OrdMap.findL_of_mem nvc.sorted (show (p.1, p.2) ∈ nvc.entries from hp)
    rw [hkey] at hfind
    cases hmaxAge.symm.trans hfind
  have hfield := readPairs_field CookieImpl.maxAge (lit "expires")
    (fun v _ => narrow 32 (clock.secondsUntil v)) hset _ nvc.sorted hframe hr
  rw [OrdMap.find] at hexpires
  rw [hexpires] at hfield
  exact hfield

/-- The two ends of the division: it rounds towards zero. -/
theorem tdiv_cases {ticks d : Int} (h : 0 < ticks) :
    (0 ≤ d → d.tdiv ticks = d / ticks ∧ 0 ≤ d / ticks)
      ∧ (d < 0 → d.tdiv ticks = -(-d / ticks)) := by
  constructor
  · intro hd
    exact ⟨Int.tdiv_eq_ediv_of_nonneg hd, Int.ediv_nonneg hd h.le⟩
  · intro hd
    have hneg : 0 ≤ -d := by omega
    rw [← Int.tdiv_eq_ediv_of_nonneg hneg, Int.neg_tdiv, neg_neg]

/-- A count of seconds as an `int`, from its residue. -/
theorem narrow_32 (n : Int) :
    narrow 32 n = if n % 2 ^ 32 < 2 ^ 31 then n % 2 ^ 32 else n % 2 ^ 32 - 2 ^ 32 :=
  Int.bmod_def n (2 ^ 32)

/-- Seconds to come: the `int` is their number or the largest one. -/
theorem narrow_future {q : Int} (hq : 0 ≤ q) :
    (narrow 32 q = min q (2 ^ 31 - 1) ∧ narrow 32 q ≠ -1)
      ↔ q < 2 ^ 31 ∨ q % 2 ^ 32 = 2 ^ 31 - 1 := by
  rw [narrow_32]
  by_cases hlow : q % 2 ^ 32 < 2 ^ 31
  · rw [if_pos hlow]
    omega
  · rw [if_neg hlow]
    omega

/-- Seconds that are over: the negative of their number is not positive and not the
    mark of a session. -/
theorem narrow_past (q : Int) :
    (narrow 32 (-q) ≤ 0 ∧ narrow 32 (-q) ≠ -1)
      ↔ q % 2 ^ 32 ≤ 2 ^ 31 ∧ q % 2 ^ 32 ≠ 1 := by
  rw [narrow_32]
  by_cases hlow : -q % 2 ^ 32 < 2 ^ 31
  · rw [if_pos hlow]
    omega
  · rw [if_neg hlow]
    omega

/-- **ONE INSTANT**: the stored age means the expiry exactly when the condition
    holds, for a difference that has a value. -/
theorem meansExpiry_iff {ticks d : Int} (h : 0 < ticks) (hfits : Fits 64 d) :
    MeansExpiry ticks d (narrow 32 (d.tdiv ticks)) ↔ Narrowable ticks d := by
  obtain ⟨hfuture, hpast⟩ := tdiv_cases (d := d) h
  by_cases hd : 0 ≤ d
  · obtain ⟨hdiv, hq⟩ := hfuture hd
    have hnot : ¬ d < 0 := by omega
    rw [hdiv]
    constructor
    · intro hm
      exact ⟨hfits, fun _ => (narrow_future hq).mp ⟨hm.future hd, hm.not_session⟩,
        fun hneg => absurd hneg hnot⟩
    · rintro ⟨-, hcond, -⟩
      obtain ⟨heq, hne⟩ := (narrow_future hq).mpr (hcond hd)
      exact ⟨fun _ => heq, fun hneg => absurd hneg hnot, hne⟩
  · have hneg : d < 0 := by omega
    have hdiv := hpast hneg
    rw [hdiv]
    constructor
    · intro hm
      exact ⟨hfits, fun hpos => absurd hpos hd,
        fun _ => (narrow_past _).mp ⟨hm.past hneg, hm.not_session⟩⟩
    · rintro ⟨-, -, hcond⟩
      obtain ⟨hle, hne⟩ := (narrow_past _).mpr (hcond hneg)
      exact ⟨fun hpos => absurd hpos hd, fun _ => hle, hne⟩

/-! ## All instants -/

/-- The map of one `expires` attribute. -/
def expiresMap (value : Bytes) : OrdMap.Map Bytes Bytes :=
  OrdMap.insertAll [(lit "expires", value)] OrdMap.empty

theorem ofMap_expiresMap (clock : Clock) (value : Bytes) :
    CookieImpl.ofMap clock (expiresMap value)
      = some { maxAge := narrow 32 (clock.secondsUntil value) } := by
  show readPairs clock [(lit "expires", value)] {} = _
  rw [readPairs]
  rfl

/-- A clock that gives `n` where the difference has no value. -/
def SystemClock.toClock (sc : SystemClock) (n : Int) : Clock where
  expiresText := fun _ => []
  secondsUntil := fun value => (sc.seconds value).getD n
  no_semicolon := fun _ => List.not_mem_nil

theorem reads_toClock (sc : SystemClock) (n : Int) : Reads (sc.toClock n) sc := by
  intro value s hs
  show (sc.seconds value).getD n = s
  rw [hs, Option.getD_some]

/-- **HEADLINE**: the age that is stored for an expiry means the expiry exactly when
    the condition holds. -/
theorem keepsExpiry_iff (sc : SystemClock) (value : Bytes) :
    KeepsExpiry sc value ↔ Narrowable sc.ticks (sc.until_ value) := by
  constructor
  · intro hkeeps
    have hmap : OrdMap.find (lit "expires") (expiresMap value) = some value := rfl
    have hnone : OrdMap.find (lit "max-age") (expiresMap value) = none := rfl
    have hread := hkeeps (sc.toClock (-1)) (expiresMap value) _ (reads_toClock sc (-1))
      hmap hnone (ofMap_expiresMap _ value)
    by_cases hfits : Fits 64 (sc.until_ value)
    · have hsecs : (sc.toClock (-1)).secondsUntil value
          = (sc.until_ value).tdiv sc.ticks := by
        refine reads_toClock sc (-1) value _ ?_
        rw [SystemClock.seconds, checked, if_pos hfits]
        rfl
      rw [hsecs] at hread
      exact (meansExpiry_iff sc.ticks_pos hfits).mp hread
    · -- without a value of the difference the age may be that of a session
      have hsecs : (sc.toClock (-1)).secondsUntil value = -1 := by
        show (sc.seconds value).getD (-1) = -1
        rw [SystemClock.seconds, checked, if_neg hfits]
        rfl
      rw [hsecs] at hread
      exact (hread.not_session rfl).elim
  · intro hcond clock nvc r hreads hexpires hmaxAge hr
    have hfits := hcond.1
    have hsecs : clock.secondsUntil value = (sc.until_ value).tdiv sc.ticks := by
      refine hreads value _ ?_
      rw [SystemClock.seconds, checked, if_pos hfits]
      rfl
    rw [ofMap_maxAge hexpires hmaxAge hr, hsecs]
    exact (meansExpiry_iff sc.ticks_pos hfits).mpr hcond

/-- A second before `nanoClock`, in the format the attribute is read with. -/
def secondAgo : Bytes := lit "Tue, 14-Nov-2023 22:13:19 GMT"

/-- A clock of nanoseconds on 14 November 2023, at 22:13:20, that knows this text; the local
    time is GMT. -/
def nanoClock : SystemClock where
  ticks := 1000000000
  now := 1700000000 * 1000000000
  mktime := fun value => if value = secondAgo then 1699999999 else 0
  ticks_pos := by decide
  now_fits := by decide
  instant_fits := by
    intro value
    split <;> decide

/-- A cookie that expired a second ago is stored as a session cookie. -/
theorem just_expired :
    CookieImpl.ofMap (nanoClock.toClock 0) (expiresMap secondAgo) = some { maxAge := -1 }
      ∧ ¬ ∀ sc value, KeepsExpiry sc value := by
  have hread : CookieImpl.ofMap (nanoClock.toClock 0) (expiresMap secondAgo)
      = some { maxAge := -1 } := by
    rw [ofMap_expiresMap]
    rfl
  refine ⟨hread, ?_⟩
  intro h
  have hmeans := h nanoClock secondAgo _ (expiresMap secondAgo) _
    (reads_toClock _ 0) rfl rfl hread
  exact hmeans.not_session rfl

end HttpCookieAge
