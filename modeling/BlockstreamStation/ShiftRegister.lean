import Mathlib.Algebra.Group.Nat.Defs
import Mathlib.Data.Nat.Bits
import Mathlib.Logic.Function.Iterate

/-!
# Feedback shift registers over bit vectors

A register of width `w` shifts towards its most significant bit; the bit that
falls out feeds the polynomial `poly` back into the rest.  A message is fed in
one bit at a time, each bit being added to the top of the register just before
a shift.  This is the bit-serial form of every left-shifting CRC.

Everything here is linear over exclusive or, and that carries the file:

* `feedAll_zipWith_xor` — the register after a sum of two messages is the sum
  of the two registers;
* `shift_injective` — a polynomial with constant term one loses nothing;
* `burst_ne_zero` — a nonzero message whose set bits lie in one window of `w`
  places leaves a nonzero register;
* `parity_feedAll` — an odd number of terms in `poly` makes the register count
  the message's set bits modulo two;
* `feedAll_ne_zero_of_count_two` — two set bits closer together than the
  first return of the top bit never cancel.
-/

namespace ShiftRegister

variable {w : Nat}

/-- One shift: the most significant bit leaves and selects the feedback. -/
def shift (poly v : BitVec w) : BitVec w :=
  if v.msb then (v <<< 1) ^^^ poly else v <<< 1

/-- A message bit in the top place of the register. -/
def inject (b : Bool) : BitVec w :=
  if b then BitVec.twoPow w (w - 1) else 0#w

/-- Feed one message bit. -/
def feed (poly v : BitVec w) (b : Bool) : BitVec w :=
  shift poly (v ^^^ inject b)

/-- Feed a message, first bit first. -/
def feedAll (poly v : BitVec w) (message : List Bool) : BitVec w :=
  message.foldl (feed poly) v

/-- No bits. -/
@[simp] theorem feedAll_nil (poly v : BitVec w) : feedAll poly v [] = v := rfl

/-- Bit by bit. -/
@[simp] theorem feedAll_cons (poly v : BitVec w) (b : Bool) (rest : List Bool) :
    feedAll poly v (b :: rest) = feedAll poly (feed poly v b) rest := rfl

/-- Two messages, one behind the other. -/
theorem feedAll_append (poly v : BitVec w) (left right : List Bool) :
    feedAll poly v (left ++ right) =
      feedAll poly (feedAll poly v left) right := by
  simp [feedAll, List.foldl_append]

/-! ## Linearity -/

/-- The empty register stays empty. -/
@[simp] theorem shift_zero (poly : BitVec w) : shift poly 0#w = 0#w := by
  simp [shift]

/-- A shift distributes over exclusive or. -/
theorem shift_xor (poly a b : BitVec w) :
    shift poly (a ^^^ b) = shift poly a ^^^ shift poly b := by
  unfold shift
  rw [BitVec.msb_xor, BitVec.shiftLeft_xor_distrib]
  cases a.msb <;> cases b.msb
  case false.false => rfl
  case false.true => exact BitVec.xor_assoc ..
  case true.false =>
    change a <<< 1 ^^^ b <<< 1 ^^^ poly = a <<< 1 ^^^ poly ^^^ b <<< 1
    rw [BitVec.xor_assoc, BitVec.xor_comm (b <<< 1) poly, ← BitVec.xor_assoc]
  case true.true =>
    change a <<< 1 ^^^ b <<< 1 = (a <<< 1 ^^^ poly) ^^^ (b <<< 1 ^^^ poly)
    rw [BitVec.xor_comm (b <<< 1) poly, BitVec.xor_assoc, ← BitVec.xor_assoc poly,
      BitVec.xor_self, BitVec.zero_xor]

/-- However often it is shifted. -/
theorem iterate_shift_zero (poly : BitVec w) (n : Nat) :
    (shift poly)^[n] 0#w = 0#w :=
  Function.iterate_fixed (shift_zero poly) n

/-- Shifting is linear. -/
theorem iterate_shift_xor (poly : BitVec w) (n : Nat) (a b : BitVec w) :
    (shift poly)^[n] (a ^^^ b) = (shift poly)^[n] a ^^^ (shift poly)^[n] b := by
  induction n generalizing a b with
  | zero => rfl
  | succ n ih => simp only [Function.iterate_succ_apply, shift_xor, ih]

/-- So is feeding a bit in. -/
theorem inject_xor (a b : Bool) :
    (inject (Bool.xor a b) : BitVec w) = inject a ^^^ inject b := by
  cases a <;> cases b <;> simp [inject]

/-- **Linearity of the register.**  Feeding the bitwise sum of two messages of
one length from the sum of two states gives the sum of the two results. -/
theorem feedAll_zipWith_xor (poly : BitVec w) :
    ∀ (xs ys : List Bool) (a b : BitVec w), xs.length = ys.length →
      feedAll poly (a ^^^ b) (List.zipWith Bool.xor xs ys) =
        feedAll poly a xs ^^^ feedAll poly b ys := by
  intro xs
  induction xs with
  | nil =>
      intro ys a b hlen
      have : ys = [] := List.length_eq_zero_iff.mp hlen.symm
      simp [this]
  | cons x xs ih =>
      intro ys a b hlen
      cases ys with
      | nil => simp at hlen
      | cons y ys =>
          have hstep : feed poly (a ^^^ b) (Bool.xor x y) =
              feed poly a x ^^^ feed poly b y := by
            unfold feed
            rw [← shift_xor, inject_xor]
            congr 1
            ac_rfl
          simp only [List.zipWith_cons_cons, feedAll_cons, hstep]
          exact ih ys _ _ (by simpa using hlen)

/-- Feeding zeros only shifts. -/
theorem feedAll_of_all_false (poly v : BitVec w) (message : List Bool)
    (hfalse : ∀ b ∈ message, b = false) :
    feedAll poly v message = (shift poly)^[message.length] v := by
  induction message generalizing v with
  | nil => rfl
  | cons b rest ih =>
      have hb : b = false := hfalse b List.mem_cons_self
      subst hb
      rw [feedAll_cons, ih _ (fun c hc => hfalse c (List.mem_cons_of_mem _ hc))]
      simp [feed, inject]

/-- The initial state contributes its own shifts, independently of the
message. -/
theorem feedAll_split (poly v : BitVec w) (message : List Bool) :
    feedAll poly v message =
      (shift poly)^[message.length] v ^^^ feedAll poly 0#w message := by
  induction message generalizing v with
  | nil => simp
  | cons b rest ih =>
      have hfeed : feed poly v b = shift poly v ^^^ feed poly 0#w b := by
        simp [feed, shift_xor]
      rw [feedAll_cons, feedAll_cons, ih, ih (feed poly 0#w b), hfeed,
        iterate_shift_xor, List.length_cons, Function.iterate_succ_apply,
        BitVec.xor_assoc]

/-! ## Invertibility -/

/-- With constant term one, a shift can be undone: the bit shifted in tells
whether the polynomial was fed back. -/
theorem shift_injective {poly : BitVec w} (hodd : poly.getLsbD 0 = true) :
    Function.Injective (shift poly) := by
  intro a b hab
  have hw : 0 < w := by
    rcases Nat.eq_zero_or_pos w with rfl | h
    · simp at hodd
    · exact h
  have hbit : ∀ v : BitVec w, (shift poly v).getLsbD 0 = v.msb := by
    intro v
    unfold shift
    cases v.msb <;> simp [hodd]
  have hmsb : a.msb = b.msb := by
    rw [← hbit a, ← hbit b, hab]
  have hshl : a <<< 1 = b <<< 1 := by
    unfold shift at hab
    rw [hmsb] at hab
    cases hb : b.msb with
    | false => simpa [hb] using hab
    | true => exact (BitVec.xor_left_inj poly).mp (by simpa [hb] using hab)
  apply BitVec.eq_of_getLsbD_eq
  intro i hi
  by_cases htop : i = w - 1
  · subst htop
    simpa [BitVec.msb_eq_getLsbD_last] using hmsb
  · have h := congrArg (fun v : BitVec w => v.getLsbD (i + 1)) hshl
    simpa [show i + 1 < w by omega, hi] using h

/-- With a constant term in the polynomial no register is shifted to nothing. -/
theorem iterate_shift_eq_zero {poly : BitVec w} (hodd : poly.getLsbD 0 = true)
    {n : Nat} {v : BitVec w} (h : (shift poly)^[n] v = 0#w) : v = 0#w := by
  apply (shift_injective hodd).iterate n
  rw [h, iterate_shift_zero]

/-! ## Windows

A message no longer than the register can be packed into its top places at
once; feeding it bit by bit is then the same as shifting the packed word. -/

/-- The message in the top places of the register, first bit on top. -/
def pack : List Bool → BitVec w
  | [] => 0#w
  | b :: rest => inject b ^^^ (pack rest >>> 1)

/-- A bit comes in at the top. -/
theorem getLsbD_inject (b : Bool) (i : Nat) :
    (inject b : BitVec w).getLsbD i = (decide (i < w ∧ i = w - 1) && b) := by
  cases b with
  | false => simp [inject]
  | true =>
      simp only [inject, if_true, BitVec.getLsbD_twoPow]
      grind

/-- A message packed behind another sits below it. -/
theorem pack_append (left right : List Bool) :
    (pack (left ++ right) : BitVec w) = pack left ^^^ (pack right >>> left.length) := by
  induction left with
  | nil => simp [pack]
  | cons b rest ih =>
      simp only [List.cons_append, pack, ih, BitVec.ushiftRight_xor_distrib,
        List.length_cons, BitVec.xor_assoc, BitVec.shiftRight_add]

/-- The places below a packed message are clear. -/
theorem getLsbD_pack_low (message : List Bool) {i : Nat}
    (hi : i + message.length < w) : (pack message : BitVec w).getLsbD i = false := by
  induction message generalizing i with
  | nil => simp [pack]
  | cons b rest ih =>
      have hlen : i + rest.length + 1 < w := by
        simpa [Nat.add_assoc] using hi
      have hlow := ih (i := 1 + i) (by omega)
      have htop : ¬(i < w ∧ i = w - 1) := by omega
      rw [pack, BitVec.getLsbD_xor, getLsbD_inject, BitVec.getLsbD_ushiftRight, hlow]
      simp [htop]

/-- Shifting undoes a right shift that lost nothing. -/
theorem shift_ushiftRight_one (poly : BitVec w) {v : BitVec w}
    (hlow : v.getLsbD 0 = false) : shift poly (v >>> 1) = v := by
  have hmsb : (v >>> 1).msb = false := by
    simp [BitVec.msb_eq_getLsbD_last]
    grind
  unfold shift
  rw [hmsb]
  apply BitVec.eq_of_getLsbD_eq
  intro i hi
  cases i with
  | zero => simp [hlow]
  | succ i => simp [hi, Nat.add_comm]

/-- Feeding a message that fits the register is packing it and shifting as
often as it has bits. -/
theorem feedAll_eq_shift_pack (poly v : BitVec w) (message : List Bool)
    (hlen : message.length ≤ w) :
    feedAll poly v message = (shift poly)^[message.length] (v ^^^ pack message) := by
  induction message generalizing v with
  | nil => simp [pack]
  | cons b rest ih =>
      have hrest : rest.length + 1 ≤ w := hlen
      have hback : shift poly (pack rest >>> 1) = pack rest :=
        shift_ushiftRight_one poly (getLsbD_pack_low rest (by omega))
      rw [feedAll_cons, ih _ (by omega), List.length_cons,
        Function.iterate_succ_apply, pack, ← BitVec.xor_assoc, shift_xor, hback]
      rfl

/-- Packing loses no bit of a message that fits. -/
theorem pack_eq_zero (message : List Bool) (hlen : message.length ≤ w)
    (hzero : (pack message : BitVec w) = 0#w) : ∀ b ∈ message, b = false := by
  induction message with
  | nil => simp
  | cons b rest ih =>
      have hrest : rest.length + 1 ≤ w := hlen
      have htop : b = false := by
        have h : (pack (b :: rest) : BitVec w).getLsbD (w - 1) = false := by
          rw [hzero]
          simp
        rw [pack, BitVec.getLsbD_xor, getLsbD_inject, BitVec.getLsbD_ushiftRight,
          BitVec.getLsbD_of_ge _ (1 + (w - 1)) (by omega)] at h
        simpa [show w - 1 < w by omega] using h
      have htail : (pack rest : BitVec w) = 0#w := by
        rw [← shift_ushiftRight_one 0#w (getLsbD_pack_low rest (by omega))]
        have hright : (pack rest : BitVec w) >>> 1 = 0#w := by
          simpa [pack, htop, inject] using hzero
        rw [hright, shift_zero]
      intro c hc
      rcases List.mem_cons.mp hc with rfl | hc
      · exact htop
      · exact ih (by omega) htail c hc

/-- **Burst detection.**  A message with a set bit, all of whose set bits lie in
the `w` places from `first` on, leaves a nonzero register: the zeros around
the window only shift, and the window itself is packed without loss. -/
theorem burst_ne_zero {poly : BitVec w} (hodd : poly.getLsbD 0 = true)
    {message : List Bool} {first : Nat}
    (hset : true ∈ message)
    (hwindow : ∀ i, message[i]? = some true → first ≤ i ∧ i < first + w) :
    feedAll poly 0#w message ≠ 0#w := by
  intro hzero
  let window := (message.drop first).take w
  have hsplit : message = message.take first ++ (window ++ message.drop (first + w)) := by
    have hdrop : message.drop (first + w) = (message.drop first).drop w := by
      rw [List.drop_drop]
    rw [hdrop, List.take_append_drop, List.take_append_drop]
  have hbefore : ∀ b ∈ message.take first, b = false := by
    intro b hb
    obtain ⟨i, hi, rfl⟩ := List.mem_iff_getElem.mp hb
    by_contra htrue
    have hget : message[i]? = some true := by
      rw [List.length_take] at hi
      rw [List.getElem_take] at htrue
      rw [List.getElem?_eq_getElem (by omega)]
      simpa using htrue
    have := (hwindow i hget).1
    have := List.length_take_le first message
    omega
  have hafter : ∀ b ∈ message.drop (first + w), b = false := by
    intro b hb
    obtain ⟨i, hi, rfl⟩ := List.mem_iff_getElem.mp hb
    by_contra htrue
    have hget : message[first + w + i]? = some true := by
      rw [List.length_drop] at hi
      rw [List.getElem_drop] at htrue
      rw [List.getElem?_eq_getElem (by omega)]
      simpa using htrue
    have := (hwindow _ hget).2
    omega
  have hlen : window.length ≤ w := List.length_take_le _ _
  rw [hsplit, feedAll_append, feedAll_append, feedAll_of_all_false _ _ _ hbefore,
    iterate_shift_zero, feedAll_of_all_false _ _ _ hafter] at hzero
  have hmiddle := iterate_shift_eq_zero hodd hzero
  rw [feedAll_eq_shift_pack _ _ _ hlen] at hmiddle
  have hpack := iterate_shift_eq_zero hodd hmiddle
  rw [BitVec.zero_xor] at hpack
  have hclear := pack_eq_zero window hlen hpack
  rw [hsplit] at hset
  rcases List.mem_append.mp hset with h | h
  · exact absurd (hbefore _ h) (by decide)
  · rcases List.mem_append.mp h with h | h
    · exact absurd (hclear _ h) (by decide)
    · exact absurd (hafter _ h) (by decide)

/-! ## Parity -/

/-- Exclusive or of the lowest `n` bits. -/
def parityBelow (v : BitVec w) : Nat → Bool
  | 0 => false
  | n + 1 => Bool.xor (v.getLsbD n) (parityBelow v n)

/-- Whether the number of set bits is odd. -/
def parity (v : BitVec w) : Bool := parityBelow v w

/-- The parity of the low bits adds up. -/
theorem parityBelow_xor (a b : BitVec w) (n : Nat) :
    parityBelow (a ^^^ b) n = Bool.xor (parityBelow a n) (parityBelow b n) := by
  induction n with
  | zero => rfl
  | succ n ih =>
      rw [parityBelow, parityBelow, parityBelow, ih, BitVec.getLsbD_xor]
      cases a.getLsbD n <;> cases b.getLsbD n <;> simp

/-- So does the parity of all. -/
theorem parity_xor (a b : BitVec w) :
    parity (a ^^^ b) = Bool.xor (parity a) (parity b) :=
  parityBelow_xor a b w

/-- The empty register is even. -/
theorem parity_zero : parity 0#w = false := by
  have h := parity_xor 0#w 0#w
  rw [BitVec.xor_self, Bool.xor_self] at h
  exact h

/-- A shift to the left carries the low bits along. -/
theorem parityBelow_shiftLeft_one (v : BitVec w) {n : Nat} (hn : n < w) :
    parityBelow (v <<< 1) (n + 1) = parityBelow v n := by
  induction n with
  | zero => simp [parityBelow]
  | succ n ih =>
      rw [parityBelow, ih (by omega), parityBelow, BitVec.getLsbD_shiftLeft]
      simp [hn]

/-- Shifting left loses exactly the most significant bit. -/
theorem parity_shiftLeft_one (v : BitVec w) :
    parity (v <<< 1) = Bool.xor v.msb (parity v) := by
  cases w with
  | zero => simp [parity, parityBelow, BitVec.msb_eq_getLsbD_last]
  | succ n =>
      rw [parity, parityBelow_shiftLeft_one v (by omega), parity, parityBelow,
        BitVec.msb_eq_getLsbD_last]
      simp

/-- An odd feedback polynomial gives back the parity of the bit shifted out. -/
theorem parity_shift {poly : BitVec w} (hpoly : parity poly = true) (v : BitVec w) :
    parity (shift poly v) = parity v := by
  unfold shift
  cases hv : v.msb with
  | false => simp [parity_shiftLeft_one, hv]
  | true => simp [parity_xor, parity_shiftLeft_one, hv, hpoly]

/-- A bit that comes in is the parity of what comes in. -/
theorem parity_inject (hw : 0 < w) (b : Bool) : parity (inject b : BitVec w) = b := by
  obtain ⟨n, rfl⟩ : ∃ n, w = n + 1 := ⟨w - 1, by omega⟩
  have hlow : ∀ k, k ≤ n → parityBelow (inject b : BitVec (n + 1)) k = false := by
    intro k hk
    induction k with
    | zero => rfl
    | succ k ih =>
        rw [parityBelow, ih (by omega), getLsbD_inject]
        simp [show k ≠ n by omega]
  rw [parity, parityBelow, hlow n (Nat.le_refl n), getLsbD_inject]
  simp

/-- **The register counts modulo two.**  Under an odd polynomial its parity is
that of the message's set bits. -/
theorem parity_feedAll {poly : BitVec w} (hw : 0 < w) (hpoly : parity poly = true)
    (v : BitVec w) (message : List Bool) :
    parity (feedAll poly v message) =
      Bool.xor (parity v) (decide (message.count true % 2 = 1)) := by
  induction message generalizing v with
  | nil => simp
  | cons b rest ih =>
      rw [feedAll_cons, ih, feed, parity_shift hpoly, parity_xor, parity_inject hw]
      cases b with
      | false => simp
      | true =>
          rw [List.count_cons_self]
          rcases Nat.mod_two_eq_zero_or_one (rest.count true) with h | h <;>
            simp [h, Nat.add_mod]

/-- An odd number of set bits leaves a nonzero register. -/
theorem feedAll_ne_zero_of_odd {poly : BitVec w} (hw : 0 < w)
    (hpoly : parity poly = true) {message : List Bool}
    (hcount : message.count true % 2 = 1) : feedAll poly 0#w message ≠ 0#w := by
  intro hzero
  have h := parity_feedAll hw hpoly 0#w message
  rw [hzero, parity_zero, hcount] at h
  simp at h

/-! ## First return of the top bit -/

/-- The top bit does not come back within fewer than `n` shifts. -/
def NoReturnBefore (poly : BitVec w) (n : Nat) : Prop :=
  ∀ d, 0 < d → d < n → (shift poly)^[d] (inject true) ≠ inject true

/-- A message starting with a set bit adds that bit's own shifts to the
register of the rest. -/
theorem feedAll_zero_true_cons (poly : BitVec w) (rest : List Bool) :
    feedAll poly 0#w (true :: rest) =
      (shift poly)^[rest.length + 1] (inject true) ^^^ feedAll poly 0#w rest := by
  rw [feedAll_cons, feedAll_split, Function.iterate_succ_apply]
  simp [feed]

/-- One set bit leaves an iterated shift of the top bit. -/
theorem feedAll_of_count_one (poly : BitVec w) {message : List Bool}
    (hcount : message.count true = 1) :
    ∃ k, 0 < k ∧ k ≤ message.length ∧
      feedAll poly 0#w message = (shift poly)^[k] (inject true) := by
  induction message with
  | nil => simp at hcount
  | cons b rest ih =>
      cases b with
      | false =>
          obtain ⟨k, hpos, hle, hk⟩ := ih (by simpa using hcount)
          refine ⟨k, hpos, by simp; omega, ?_⟩
          simpa [feed, inject] using hk
      | true =>
          have hrest : ∀ c ∈ rest, c = false := by
            have h0 : rest.count true = 0 := by simpa using hcount
            intro c hc
            cases c with
            | false => rfl
            | true => exact absurd hc (List.count_eq_zero.mp h0)
          refine ⟨rest.length + 1, by omega, by simp, ?_⟩
          rw [feedAll_zero_true_cons, feedAll_of_all_false _ _ _ hrest,
            iterate_shift_zero, BitVec.xor_zero]

/-- **Two set bits.**  In a message no longer than the first return of the top
bit, two set bits leave two different iterates, which cannot cancel. -/
theorem feedAll_ne_zero_of_count_two {poly : BitVec w}
    (hodd : poly.getLsbD 0 = true) {n : Nat} (hreturn : NoReturnBefore poly n)
    {message : List Bool} (hlen : message.length ≤ n)
    (hcount : message.count true = 2) : feedAll poly 0#w message ≠ 0#w := by
  induction message with
  | nil => simp at hcount
  | cons b rest ih =>
      have hrest : rest.length + 1 ≤ n := hlen
      cases b with
      | false =>
          have h := ih (by omega) (by simpa using hcount)
          simpa [feed, inject] using h
      | true =>
          have hone : rest.count true = 1 := by simpa using hcount
          obtain ⟨k, hpos, hle, hk⟩ := feedAll_of_count_one poly hone
          rw [feedAll_zero_true_cons, hk]
          intro hzero
          have heq : (shift poly)^[rest.length + 1] (inject true) =
              (shift poly)^[k] (inject true) := BitVec.xor_eq_zero_iff.mp hzero
          have hsum : rest.length + 1 = k + (rest.length + 1 - k) := by omega
          rw [hsum, Function.iterate_add_apply] at heq
          exact hreturn (rest.length + 1 - k) (by omega) (by omega)
            ((shift_injective hodd).iterate k heq)

/-- Walk `fuel` steps of `next` from `state` and report whether `target` is
never met.  The match on the state makes evaluation keep it a numeral. -/
def walkAvoids (next : Nat → Nat) (target : Nat) : Nat → Nat → Bool
  | 0, _ => true
  | fuel + 1, state =>
      match state with
      | 0 => decide (target ≠ 0)
      | s + 1 =>
          if s + 1 = target then false
          else walkAvoids next target fuel (next (s + 1))

/-- A walk that avoids its target visits it at none of its steps. -/
theorem walkAvoids_sound {next : Nat → Nat} {target : Nat} (hzero : next 0 = 0) :
    ∀ {fuel state : Nat}, walkAvoids next target fuel state = true →
      ∀ d, d < fuel → next^[d] state ≠ target := by
  intro fuel
  induction fuel with
  | zero => intro state _ d hd; omega
  | succ fuel ih =>
      intro state hwalk d hd
      cases state with
      | zero =>
          rw [Function.iterate_fixed hzero]
          have htarget : target ≠ 0 := by simpa [walkAvoids] using hwalk
          exact htarget.symm
      | succ s =>
          by_cases hs : s + 1 = target
          · simp [walkAvoids, hs] at hwalk
          · cases d with
            | zero => exact hs
            | succ d =>
                rw [Function.iterate_succ_apply]
                refine ih ?_ d (by omega)
                simpa [walkAvoids, hs] using hwalk

/-- The shift of a register on its numeral. -/
def shiftNat (w poly n : Nat) : Nat :=
  if 2 ^ (w - 1) ≤ n then (n * 2 % 2 ^ w) ^^^ poly else n * 2

/-- A shift in numbers. -/
theorem toNat_shift (poly v : BitVec w) :
    (shift poly v).toNat = shiftNat w poly.toNat v.toNat := by
  have hv := v.isLt
  unfold shift shiftNat
  rw [BitVec.msb_eq_decide]
  by_cases htop : 2 ^ (w - 1) ≤ v.toNat
  · simp [htop, Nat.shiftLeft_eq]
  · have hlt : v.toNat * 2 < 2 ^ w := by
      cases w with
      | zero => simp at htop; omega
      | succ n =>
          rw [Nat.pow_succ]
          simp at htop
          omega
    simp [htop, Nat.shiftLeft_eq, Nat.mod_eq_of_lt hlt]

/-- Several shifts in numbers. -/
theorem toNat_iterate_shift (poly v : BitVec w) (n : Nat) :
    ((shift poly)^[n] v).toNat = (shiftNat w poly.toNat)^[n] v.toNat := by
  induction n generalizing v with
  | zero => rfl
  | succ n ih => rw [Function.iterate_succ_apply, ih, toNat_shift, Function.iterate_succ_apply]

/-- The return time can be checked by walking the register's numerals. -/
theorem noReturnBefore_of_walk {poly : BitVec w} {n : Nat} (hw : 0 < w)
    (hwalk : walkAvoids (shiftNat w poly.toNat) (2 ^ (w - 1)) n
      (shiftNat w poly.toNat (2 ^ (w - 1))) = true) :
    NoReturnBefore poly (n + 1) := by
  intro d hpos hlt heq
  obtain ⟨k, rfl⟩ : ∃ k, d = k + 1 := ⟨d - 1, by omega⟩
  have htop : (inject true : BitVec w).toNat = 2 ^ (w - 1) := by
    simp [inject, BitVec.toNat_twoPow, hw]
  have hzero : shiftNat w poly.toNat 0 = 0 := by
    simp [shiftNat]
  have h := congrArg BitVec.toNat heq
  rw [toNat_iterate_shift, htop, Function.iterate_succ_apply] at h
  exact walkAvoids_sound hzero hwalk k (by omega) h

end ShiftRegister
