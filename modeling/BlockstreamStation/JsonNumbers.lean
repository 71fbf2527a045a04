import BlockstreamStation.JsonText
import BlockstreamStation.LabelledRuns

/-!
# Number literals

`lexer::scan_number` of the vendored `nlohmann::json`: an automaton with one label
for each state, which reads as far as it can and fails where it stops in the middle
of a number.  `NumberText` is the grammar of the numbers, and says what type each is
read as.

* `completes_iff` — from every label the automaton accepts what may follow there;
* `scanNumber_iff` — the scanner reads the numbers of the grammar, each as far as it
  goes.
-/

namespace JsonText

open CText LabelledRuns

/-! ## The scanner -/

/-- The labels of `scan_number`. -/
inductive NumberState where
  | init
  | minus
  | zero
  | any1
  | decimal1
  | decimal2
  | exponent
  | sign
  | any2
deriving DecidableEq

/-- What a number is read as. -/
inductive NumberType where
  | unsigned
  | integer
  | float
deriving DecidableEq

def IsDigit (b : UInt8) : Prop := 48 ≤ b ∧ b ≤ 57

instance (b : UInt8) : Decidable (IsDigit b) := by unfold IsDigit; infer_instance

/-- The letter before an exponent. -/
def IsExponent (b : UInt8) : Prop := b = 101 ∨ b = 69

instance (b : UInt8) : Decidable (IsExponent b) := by unfold IsExponent; infer_instance

namespace NumberState

/-- Where a label goes on a byte; `none` is its default case. -/
def next : NumberState → UInt8 → Option NumberState
  | .init, b =>
      if b = 45 then some .minus
      else if b = 48 then some .zero
      else if IsDigit b then some .any1
      else none
  | .minus, b =>
      if b = 48 then some .zero
      else if IsDigit b then some .any1
      else none
  | .zero, b =>
      if b = 46 then some .decimal1
      else if IsExponent b then some .exponent
      else none
  | .any1, b =>
      if IsDigit b then some .any1
      else if b = 46 then some .decimal1
      else if IsExponent b then some .exponent
      else none
  | .decimal1, b => if IsDigit b then some .decimal2 else none
  | .decimal2, b =>
      if IsDigit b then some .decimal2
      else if IsExponent b then some .exponent
      else none
  | .exponent, b =>
      if b = 43 ∨ b = 45 then some .sign
      else if IsDigit b then some .any2
      else none
  | .sign, b => if IsDigit b then some .any2 else none
  | .any2, b => if IsDigit b then some .any2 else none

/-- Does the default case lead to `scan_number_done`? -/
def done : NumberState → Bool
  | .zero | .any1 | .decimal2 | .any2 => true
  | .init | .minus | .decimal1 | .exponent | .sign => false

/-- `number_type` behind a label. -/
def type (number_type : NumberType) : NumberState → NumberType
  | .minus => .integer
  | .decimal1 | .exponent => .float
  | .init | .zero | .any1 | .decimal2 | .sign | .any2 => number_type

end NumberState

/-- One `goto` of the scanner. -/
def numberStep (s : NumberState × NumberType) (b : UInt8) : Option (NumberState × NumberType) :=
  (s.1.next b).map fun label => (label, label.type s.2)

/-- The scanner from a label on: the type, the buffer and what is left.  The byte
behind the number is given back. -/
def scanNumberFrom (s : NumberState × NumberType) (token_buffer : Bytes) :
    Bytes → Option (NumberType × Bytes × Bytes)
  | [] => if s.1.done then some (s.2, token_buffer, []) else none
  | current :: rest =>
      match numberStep s current with
      | some s => scanNumberFrom s (token_buffer ++ [current]) rest
      | none => if s.1.done then some (s.2, token_buffer, current :: rest) else none

/-- `scan_number` up to `scan_number_done`. -/
def scanNumber (input : Bytes) : Option (NumberType × Bytes × Bytes) :=
  scanNumberFrom (.init, .unsigned) [] input

/-! ## The grammar -/

def AllDigits (t : Bytes) : Prop := ∀ b ∈ t, IsDigit b

/-- `-` or nothing. -/
def Minus (t : Bytes) : Prop := t = [] ∨ t = [45]

/-- The digits before the point: zero stands alone. -/
inductive IntPart : Bytes → Prop
  | zero : IntPart [48]
  | digits {b : UInt8} {ds : Bytes} : IsDigit b → b ≠ 48 → AllDigits ds → IntPart (b :: ds)

/-- A point with digits behind it, or nothing. -/
inductive FracPart : Bytes → Prop
  | absent : FracPart []
  | present {ds : Bytes} : ds ≠ [] → AllDigits ds → FracPart (46 :: ds)

/-- An exponent, or nothing. -/
inductive ExpPart : Bytes → Prop
  | absent : ExpPart []
  | present {e : UInt8} {sign ds : Bytes} : IsExponent e →
      sign = [] ∨ sign = [43] ∨ sign = [45] → ds ≠ [] → AllDigits ds →
      ExpPart (e :: (sign ++ ds))

/-- The numbers, with what each is read as. -/
inductive NumberText : NumberType → Bytes → Prop
  | unsigned {int : Bytes} : IntPart int → NumberText .unsigned int
  | integer {int : Bytes} : IntPart int → NumberText .integer (45 :: int)
  | float {minus int frac exp : Bytes} : Minus minus → IntPart int → FracPart frac →
      ExpPart exp → frac ++ exp ≠ [] → NumberText .float (minus ++ (int ++ (frac ++ exp)))

/-- A longer number begins with `t` and `b`. -/
def Continues (t : Bytes) (b : UInt8) : Prop := ∃ type more, NumberText type (t ++ b :: more)

/-! ## What may follow a label -/

/-- An exponent or nothing, and the type it leaves. -/
def EndsExp (number_type ending : NumberType) (t : Bytes) : Prop :=
  ExpPart t ∧ ending = if t = [] then number_type else .float

/-- A fraction and an exponent, or one of them, or nothing. -/
def EndsFrac (number_type ending : NumberType) (t : Bytes) : Prop :=
  ∃ frac exp, t = frac ++ exp ∧ FracPart frac ∧ ExpPart exp ∧
    ending = if t = [] then number_type else .float

/-- What takes the automaton from a label to its end, and the type it ends with. -/
def Completes (number_type ending : NumberType) : NumberState → Bytes → Prop
  | .any2, t => AllDigits t ∧ ending = number_type
  | .sign, t => t ≠ [] ∧ AllDigits t ∧ ending = number_type
  | .exponent, t => ExpPart (101 :: t) ∧ ending = number_type
  | .decimal2, t => ∃ ds exp, t = ds ++ exp ∧ AllDigits ds ∧ EndsExp number_type ending exp
  | .decimal1, t => ∃ ds exp, t = ds ++ exp ∧ ds ≠ [] ∧ AllDigits ds ∧
      EndsExp number_type ending exp
  | .zero, t => EndsFrac number_type ending t
  | .any1, t => ∃ ds rest, t = ds ++ rest ∧ AllDigits ds ∧ EndsFrac number_type ending rest
  | .minus, t => ∃ int rest, t = int ++ rest ∧ IntPart int ∧ EndsFrac number_type ending rest
  | .init, t => ∃ minus int rest, t = minus ++ (int ++ rest) ∧ Minus minus ∧ IntPart int ∧
      EndsFrac (if minus = [] then number_type else .integer) ending rest

/-- No bytes are digits. -/
theorem allDigits_nil : AllDigits [] := List.forall_mem_nil _

/-- Byte by byte. -/
theorem allDigits_cons {b : UInt8} {t : Bytes} :
    AllDigits (b :: t) ↔ IsDigit b ∧ AllDigits t :=
  List.forall_mem_cons

/-- An exponent without a sign. -/
theorem expPart_digits {e : UInt8} {ds : Bytes} (he : IsExponent e) (hne : ds ≠ [])
    (hds : AllDigits ds) : ExpPart (e :: ([] ++ ds)) :=
  .present he (.inl rfl) hne hds

/-- The letter of an exponent does not matter. -/
theorem expPart_letter {e e' : UInt8} {t : Bytes} (he : IsExponent e)
    (h : ExpPart (e' :: t)) : ExpPart (e :: t) := by
  cases h with
  | present _ hsign hne hds => exact .present he hsign hne hds

/-- There is a digit before the point. -/
theorem IntPart.ne_nil {int : Bytes} (h : IntPart int) : int ≠ [] := by
  cases h <;> simp

section Completion

variable {ty ending : NumberType} {label : NumberState} {b : UInt8} {t : Bytes}

/-- Nothing leaves the type. -/
theorem endsExp_nil : EndsExp ty ending [] ↔ ending = ty := by
  constructor
  · exact fun h => h.2
  · exact fun h => ⟨.absent, h⟩

/-- Here too. -/
theorem endsFrac_nil : EndsFrac ty ending [] ↔ ending = ty := by
  constructor
  · intro h
    obtain ⟨frac, exp, -, -, -, heq⟩ := h
    exact heq
  · exact fun h => ⟨[], [], rfl, .absent, .absent, h⟩

/-- A label is completed by nothing exactly if it is a last one. -/
theorem completes_nil {s : NumberState} :
    Completes ty ending s [] ↔ s.done = true ∧ ending = ty := by
  cases s with
  | init =>
      refine iff_of_false (fun h => ?_) (by simp [NumberState.done])
      obtain ⟨minus, int, rest, heq, -, hint, -⟩ := h
      obtain ⟨-, hrest⟩ := List.append_eq_nil_iff.mp heq.symm
      exact hint.ne_nil (List.append_eq_nil_iff.mp hrest).1
  | minus =>
      refine iff_of_false (fun h => ?_) (by simp [NumberState.done])
      obtain ⟨int, rest, heq, hint, -⟩ := h
      exact hint.ne_nil (List.append_eq_nil_iff.mp heq.symm).1
  | zero => simpa [Completes, NumberState.done] using endsFrac_nil
  | any1 =>
      constructor
      · intro h
        obtain ⟨ds, rest, heq, -, hrest⟩ := h
        obtain ⟨-, rfl⟩ := List.append_eq_nil_iff.mp heq.symm
        exact ⟨rfl, endsFrac_nil.mp hrest⟩
      · exact fun h => ⟨[], [], rfl, allDigits_nil, endsFrac_nil.mpr h.2⟩
  | decimal1 =>
      refine iff_of_false (fun h => ?_) (by simp [NumberState.done])
      obtain ⟨ds, exp, heq, hne, -⟩ := h
      exact hne (List.append_eq_nil_iff.mp heq.symm).1
  | decimal2 =>
      constructor
      · intro h
        obtain ⟨ds, exp, heq, -, hexp⟩ := h
        obtain ⟨-, rfl⟩ := List.append_eq_nil_iff.mp heq.symm
        exact ⟨rfl, endsExp_nil.mp hexp⟩
      · exact fun h => ⟨[], [], rfl, allDigits_nil, endsExp_nil.mpr h.2⟩
  | exponent =>
      refine iff_of_false (fun h => ?_) (by simp [NumberState.done])
      obtain ⟨hexp, -⟩ := h
      generalize hnil : ([] : Bytes) = tail at hexp
      cases hexp with
      | present _ _ hne _ => exact hne (List.append_eq_nil_iff.mp hnil.symm).2
  | sign => simp [Completes, NumberState.done]
  | any2 => simp [Completes, NumberState.done, AllDigits]

/-- What the point or the letter of an exponent begins. -/
theorem endsFrac_cons (h : b = 46 ∧ Completes .float ending .decimal1 t ∨
    IsExponent b ∧ Completes .float ending .exponent t) : EndsFrac ty ending (b :: t) := by
  obtain ⟨rfl, ds, exp, rfl, hne, hds, hexp, rfl⟩ | ⟨hb, hexp, rfl⟩ := h
  · exact ⟨46 :: ds, exp, rfl, .present hne hds, hexp, by simp⟩
  · exact ⟨[], b :: t, rfl, .absent, expPart_letter hb hexp, by simp⟩

/-- One step back from what completes the next label. -/
theorem completes_cons {s : NumberState} (hnext : s.next b = some label)
    (h : Completes (label.type ty) ending label t) : Completes ty ending s (b :: t) := by
  cases s with
  | init =>
      rw [NumberState.next] at hnext
      split_ifs at hnext with hminus hzero hdigit <;> obtain rfl := Option.some.inj hnext
      · obtain ⟨int, rest, rfl, hint, hrest⟩ := h
        exact ⟨[45], int, rest, by rw [hminus]; rfl, .inr rfl, hint, hrest⟩
      · exact ⟨[], [48], t, by rw [hzero]; rfl, .inl rfl, .zero, h⟩
      · obtain ⟨ds, rest, rfl, hds, hrest⟩ := h
        exact ⟨[], b :: ds, rest, rfl, .inl rfl, .digits hdigit hzero hds, hrest⟩
  | minus =>
      rw [NumberState.next] at hnext
      split_ifs at hnext with hzero hdigit <;> obtain rfl := Option.some.inj hnext
      · exact ⟨[48], t, by rw [hzero]; rfl, .zero, h⟩
      · obtain ⟨ds, rest, rfl, hds, hrest⟩ := h
        exact ⟨b :: ds, rest, rfl, .digits hdigit hzero hds, hrest⟩
  | zero =>
      rw [NumberState.next] at hnext
      split_ifs at hnext with hpoint hexponent <;> obtain rfl := Option.some.inj hnext
      · exact endsFrac_cons (.inl ⟨hpoint, h⟩)
      · exact endsFrac_cons (.inr ⟨hexponent, h⟩)
  | any1 =>
      rw [NumberState.next] at hnext
      split_ifs at hnext with hdigit hpoint hexponent <;> obtain rfl := Option.some.inj hnext
      · obtain ⟨ds, rest, rfl, hds, hrest⟩ := h
        exact ⟨b :: ds, rest, rfl, allDigits_cons.mpr ⟨hdigit, hds⟩, hrest⟩
      · exact ⟨[], b :: t, rfl, allDigits_nil, endsFrac_cons (.inl ⟨hpoint, h⟩)⟩
      · exact ⟨[], b :: t, rfl, allDigits_nil, endsFrac_cons (.inr ⟨hexponent, h⟩)⟩
  | decimal1 =>
      rw [NumberState.next] at hnext
      split_ifs at hnext with hdigit
      obtain rfl := Option.some.inj hnext
      obtain ⟨ds, exp, rfl, hds, hexp⟩ := h
      exact ⟨b :: ds, exp, rfl, by simp, allDigits_cons.mpr ⟨hdigit, hds⟩, hexp⟩
  | decimal2 =>
      rw [NumberState.next] at hnext
      split_ifs at hnext with hdigit hexponent <;> obtain rfl := Option.some.inj hnext
      · obtain ⟨ds, exp, rfl, hds, hexp⟩ := h
        exact ⟨b :: ds, exp, rfl, allDigits_cons.mpr ⟨hdigit, hds⟩, hexp⟩
      · obtain ⟨hexp, rfl⟩ := h
        exact ⟨[], b :: t, rfl, allDigits_nil, expPart_letter hexponent hexp,
          by simp [NumberState.type]⟩
  | exponent =>
      rw [NumberState.next] at hnext
      split_ifs at hnext with hsign hdigit <;> obtain rfl := Option.some.inj hnext
      · obtain ⟨hne, hds, rfl⟩ := h
        have hone : [b] = [] ∨ [b] = [43] ∨ [b] = [45] := by simpa using hsign
        exact ⟨(.present (.inl rfl) hone hne hds : ExpPart (101 :: ([b] ++ t))), rfl⟩
      · obtain ⟨hds, rfl⟩ := h
        exact ⟨expPart_digits (.inl rfl) (by simp) (allDigits_cons.mpr ⟨hdigit, hds⟩), rfl⟩
  | sign =>
      rw [NumberState.next] at hnext
      split_ifs at hnext with hdigit
      obtain rfl := Option.some.inj hnext
      obtain ⟨hds, rfl⟩ := h
      exact ⟨by simp, allDigits_cons.mpr ⟨hdigit, hds⟩, rfl⟩
  | any2 =>
      rw [NumberState.next] at hnext
      split_ifs at hnext with hdigit
      obtain rfl := Option.some.inj hnext
      obtain ⟨hds, rfl⟩ := h
      exact ⟨allDigits_cons.mpr ⟨hdigit, hds⟩, rfl⟩

/-- The letter of an exponent is no digit. -/
theorem not_isDigit_of_isExponent (h : IsExponent b) : ¬ IsDigit b := by
  obtain rfl | rfl := h <;> decide

/-- It is no point. -/
theorem ne_46_of_isExponent (h : IsExponent b) : b ≠ 46 := by
  obtain rfl | rfl := h <;> decide

/-- The letter leads to the label of the exponent. -/
theorem completes_of_expPart (h : ExpPart (b :: t)) :
    IsExponent b ∧ Completes .float .float .exponent t := by
  cases h with
  | present hb hsign hne hds => exact ⟨hb, .present (.inl rfl) hsign hne hds, rfl⟩

/-- What stands first in a fraction or an exponent. -/
theorem endsFrac_head (h : EndsFrac ty ending (b :: t)) :
    b = 46 ∧ Completes .float ending .decimal1 t ∨
      IsExponent b ∧ Completes .float ending .exponent t := by
  obtain ⟨frac, exp, heq, hfrac, hexp, rfl⟩ := h
  cases hfrac with
  | absent =>
      rw [List.nil_append] at heq
      subst heq
      simpa using .inr (completes_of_expPart hexp)
  | present hne hds =>
      obtain ⟨rfl, rfl⟩ := List.cons.inj heq
      exact .inl ⟨rfl, _, exp, rfl, hne, hds, hexp, by simp⟩

/-- The label that the first byte leads to. -/
theorem completes_head {s : NumberState} (h : Completes ty ending s (b :: t)) :
    ∃ label, s.next b = some label ∧ Completes (label.type ty) ending label t := by
  cases s with
  | init =>
      obtain ⟨minus, int, rest, heq, hminus, hint, hrest⟩ := h
      obtain rfl | rfl := hminus
      · rw [List.nil_append] at heq
        cases hint with
        | zero =>
            obtain ⟨rfl, rfl⟩ := List.cons.inj heq
            exact ⟨.zero, rfl, hrest⟩
        | @digits _ ds hdigit hzero hds =>
            obtain ⟨rfl, rfl⟩ := List.cons.inj heq
            have hminus : b ≠ 45 := by
              intro heq
              subst heq
              revert hdigit
              decide
            exact ⟨.any1, by rw [NumberState.next, if_neg hminus, if_neg hzero, if_pos hdigit],
              ds, rest, rfl, hds, hrest⟩
      · obtain ⟨rfl, rfl⟩ := List.cons.inj heq
        exact ⟨.minus, rfl, int, rest, rfl, hint, hrest⟩
  | minus =>
      obtain ⟨int, rest, heq, hint, hrest⟩ := h
      cases hint with
      | zero =>
          obtain ⟨rfl, rfl⟩ := List.cons.inj heq
          exact ⟨.zero, rfl, hrest⟩
      | @digits _ ds hdigit hzero hds =>
          obtain ⟨rfl, rfl⟩ := List.cons.inj heq
          exact ⟨.any1, by rw [NumberState.next, if_neg hzero, if_pos hdigit], ds, rest, rfl, hds,
            hrest⟩
  | zero =>
      obtain ⟨rfl, hpoint⟩ | ⟨hexponent, hexp⟩ := endsFrac_head h
      · exact ⟨.decimal1, rfl, hpoint⟩
      · exact ⟨.exponent, by
          rw [NumberState.next, if_neg (ne_46_of_isExponent hexponent), if_pos hexponent], hexp⟩
  | any1 =>
      obtain ⟨ds, rest, heq, hds, hrest⟩ := h
      cases ds with
      | nil =>
          rw [List.nil_append] at heq
          subst heq
          obtain ⟨rfl, hpoint⟩ | ⟨hexponent, hexp⟩ := endsFrac_head hrest
          · exact ⟨.decimal1, rfl, hpoint⟩
          · exact ⟨.exponent, by
              rw [NumberState.next, if_neg (not_isDigit_of_isExponent hexponent),
                if_neg (ne_46_of_isExponent hexponent), if_pos hexponent], hexp⟩
      | cons d ds =>
          obtain ⟨rfl, rfl⟩ := List.cons.inj heq
          obtain ⟨hdigit, hds⟩ := allDigits_cons.mp hds
          exact ⟨.any1, by rw [NumberState.next, if_pos hdigit], ds, rest, rfl, hds, hrest⟩
  | decimal1 =>
      obtain ⟨ds, exp, heq, hne, hds, hexp⟩ := h
      cases ds with
      | nil => exact absurd rfl hne
      | cons d ds =>
          obtain ⟨rfl, rfl⟩ := List.cons.inj heq
          obtain ⟨hdigit, hds⟩ := allDigits_cons.mp hds
          exact ⟨.decimal2, by rw [NumberState.next, if_pos hdigit], ds, exp, rfl, hds, hexp⟩
  | decimal2 =>
      obtain ⟨ds, exp, heq, hds, hexp, rfl⟩ := h
      cases ds with
      | nil =>
          rw [List.nil_append] at heq
          subst heq
          obtain ⟨hexponent, hrest⟩ := completes_of_expPart hexp
          refine ⟨.exponent, by rw [NumberState.next,
            if_neg (not_isDigit_of_isExponent hexponent), if_pos hexponent], ?_⟩
          simpa [NumberState.type] using hrest
      | cons d ds =>
          obtain ⟨rfl, rfl⟩ := List.cons.inj heq
          obtain ⟨hdigit, hds⟩ := allDigits_cons.mp hds
          exact ⟨.decimal2, by rw [NumberState.next, if_pos hdigit], ds, exp, rfl, hds, hexp, rfl⟩
  | exponent =>
      obtain ⟨hexp, rfl⟩ := h
      generalize htail : b :: t = tail at hexp
      cases hexp with
      | @present _ sign ds _ hsign hne hds =>
          obtain rfl | rfl | rfl := hsign
          · rw [List.nil_append] at htail
            subst htail
            obtain ⟨hdigit, hds⟩ := allDigits_cons.mp hds
            have hnot : ¬ (b = 43 ∨ b = 45) := by
              intro hsign
              obtain rfl | rfl := hsign <;> revert hdigit <;> decide
            exact ⟨.any2, by rw [NumberState.next, if_neg hnot, if_pos hdigit], hds, rfl⟩
          · obtain ⟨rfl, rfl⟩ := List.cons.inj htail
            exact ⟨.sign, rfl, hne, hds, rfl⟩
          · obtain ⟨rfl, rfl⟩ := List.cons.inj htail
            exact ⟨.sign, rfl, hne, hds, rfl⟩
  | sign =>
      obtain ⟨-, hds, rfl⟩ := h
      obtain ⟨hdigit, hds⟩ := allDigits_cons.mp hds
      exact ⟨.any2, by rw [NumberState.next, if_pos hdigit], hds, rfl⟩
  | any2 =>
      obtain ⟨hds, rfl⟩ := h
      obtain ⟨hdigit, hds⟩ := allDigits_cons.mp hds
      exact ⟨.any2, by rw [NumberState.next, if_pos hdigit], hds, rfl⟩

/-- **The automaton accepts what may follow.**  From a label it comes to its end over
exactly the byte strings that complete a number there. -/
theorem completes_iff {s : NumberState} :
    (∃ label, exec numberStep (s, ty) t = some (label, ending) ∧ label.done = true) ↔
      Completes ty ending s t := by
  induction t generalizing s ty with
  | nil =>
      rw [completes_nil]
      constructor
      · intro hexists
        obtain ⟨label, hexec, hdone⟩ := hexists
        obtain ⟨rfl, rfl⟩ := Prod.mk.inj (Option.some.inj hexec)
        exact ⟨hdone, rfl⟩
      · intro hparts
        obtain ⟨hdone, rfl⟩ := hparts
        exact ⟨s, rfl, hdone⟩
  | cons b t ih =>
      constructor
      · intro hexists
        obtain ⟨label, hexec, hdone⟩ := hexists
        obtain ⟨⟨label', ty'⟩, hstep, hrest⟩ := Option.bind_eq_some_iff.mp hexec
        obtain ⟨_, hnext, heq⟩ := Option.map_eq_some_iff.mp hstep
        obtain ⟨rfl, rfl⟩ := Prod.mk.inj heq
        exact completes_cons hnext (ih.mp ⟨label, hrest, hdone⟩)
      · intro h
        obtain ⟨label', hnext, hrest⟩ := completes_head h
        obtain ⟨label, hexec, hdone⟩ := ih.mpr hrest
        have hstep : numberStep (s, ty) b = some (label', label'.type ty) := by
          rw [numberStep, hnext, Option.map_some]
        exact ⟨label, by rw [exec_cons_of_step hstep, hexec], hdone⟩

/-- The automaton can be brought to its end from every label. -/
theorem exists_completes (ty : NumberType) (s : NumberState) :
    ∃ ending t, Completes ty ending s t := by
  cases s with
  | init => exact ⟨ty, [48], [], [48], [], rfl, .inl rfl, .zero, endsFrac_nil.mpr rfl⟩
  | minus => exact ⟨ty, [48], [48], [], rfl, .zero, endsFrac_nil.mpr rfl⟩
  | zero => exact ⟨ty, [], endsFrac_nil.mpr rfl⟩
  | any1 => exact ⟨ty, [], [], [], rfl, allDigits_nil, endsFrac_nil.mpr rfl⟩
  | decimal1 =>
      exact ⟨ty, [48], [48], [], rfl, by simp, by simp [AllDigits, IsDigit], endsExp_nil.mpr rfl⟩
  | decimal2 => exact ⟨ty, [], [], [], rfl, allDigits_nil, endsExp_nil.mpr rfl⟩
  | exponent =>
      exact ⟨ty, [48], expPart_digits (.inl rfl) (by simp) (by simp [AllDigits, IsDigit]), rfl⟩
  | sign => exact ⟨ty, [48], by simp, by simp [AllDigits, IsDigit], rfl⟩
  | any2 => exact ⟨ty, [], allDigits_nil, rfl⟩

end Completion

/-- From its first label the automaton accepts the numbers of the grammar. -/
theorem numberText_iff {ending : NumberType} {t : Bytes} :
    Completes .unsigned ending .init t ↔ NumberText ending t := by
  constructor
  · intro h
    obtain ⟨minus, int, rest, rfl, hminus, hint, frac, exp, rfl, hfrac, hexp, rfl⟩ := h
    by_cases hnil : frac ++ exp = []
    · rw [if_pos hnil]
      obtain rfl | rfl := hminus
      · simpa [hnil] using NumberText.unsigned hint
      · simpa [hnil] using NumberText.integer hint
    · rw [if_neg hnil]
      exact .float hminus hint hfrac hexp hnil
  · intro h
    cases h with
    | unsigned hint => exact ⟨[], t, [], by simp, .inl rfl, hint, endsFrac_nil.mpr rfl⟩
    | @integer int hint => exact ⟨[45], int, [], by simp, .inr rfl, hint, endsFrac_nil.mpr rfl⟩
    | @float minus int frac exp hminus hint hfrac hexp hne =>
        exact ⟨minus, int, frac ++ exp, rfl, hminus, hint, frac, exp, rfl, hfrac, hexp,
          (if_neg hne).symm⟩

/-! ## The scanner and the grammar -/

/-- The scanner goes on as long as its automaton does. -/
theorem scanNumberFrom_iff {input found rest : Bytes} {ending : NumberType} :
    ∀ (s : NumberState × NumberType) (token_buffer : Bytes),
      scanNumberFrom s token_buffer input = some (ending, found, rest) ↔
        ∃ t label, input = t ++ rest ∧ found = token_buffer ++ t ∧
          exec numberStep s t = some (label, ending) ∧ label.done = true ∧
          ∀ b tail, rest = b :: tail → numberStep (label, ending) b = none := by
  induction input with
  | nil =>
      intro s token_buffer
      rw [scanNumberFrom]
      constructor
      · intro h
        split_ifs at h with hdone
        obtain ⟨rfl, hparts⟩ := Prod.mk.inj (Option.some.inj h)
        obtain ⟨rfl, rfl⟩ := Prod.mk.inj hparts
        exact ⟨[], s.1, rfl, by simp, rfl, hdone, by simp⟩
      · intro hexists
        obtain ⟨t, label, heq, rfl, hexec, hdone, -⟩ := hexists
        obtain ⟨rfl, rfl⟩ := List.append_eq_nil_iff.mp heq.symm
        obtain rfl := Option.some.inj hexec
        rw [if_pos hdone, List.append_nil]
  | cons current input ih =>
      intro s token_buffer
      rw [scanNumberFrom]
      cases hstep : numberStep s current with
      | some s' =>
          simp only
          rw [ih]
          constructor
          · intro hexists
            obtain ⟨t, label, rfl, rfl, hexec, hdone, hstop⟩ := hexists
            exact ⟨current :: t, label, rfl, by simp,
              by rw [exec_cons_of_step hstep, hexec], hdone, hstop⟩
          · intro hexists
            obtain ⟨t, label, heq, rfl, hexec, hdone, hstop⟩ := hexists
            cases t with
            | nil =>
                obtain rfl := Option.some.inj hexec
                rw [hstop current input heq.symm] at hstep
                cases hstep
            | cons b t =>
                obtain ⟨rfl, rfl⟩ := List.cons.inj heq
                rw [exec_cons_of_step hstep] at hexec
                exact ⟨t, label, rfl, by simp, hexec, hdone, hstop⟩
      | none =>
          simp only
          constructor
          · intro h
            split_ifs at h with hdone
            obtain ⟨rfl, hparts⟩ := Prod.mk.inj (Option.some.inj h)
            obtain ⟨rfl, rfl⟩ := Prod.mk.inj hparts
            refine ⟨[], s.1, rfl, by simp, rfl, hdone, fun b tail heq => ?_⟩
            obtain ⟨rfl, -⟩ := List.cons.inj heq
            exact hstep
          · intro hexists
            obtain ⟨t, label, heq, rfl, hexec, hdone, hstop⟩ := hexists
            cases t with
            | nil =>
                obtain rfl := Option.some.inj hexec
                rw [List.nil_append] at heq
                rw [if_pos hdone, List.append_nil, heq]
            | cons b t =>
                obtain ⟨rfl, rfl⟩ := List.cons.inj heq
                rw [exec, hstep] at hexec
                cases hexec

/-- A byte continues a number exactly when the automaton goes on. -/
theorem continues_iff {t : Bytes} {b : UInt8} {label : NumberState} {ending : NumberType}
    (h : exec numberStep (.init, .unsigned) t = some (label, ending)) :
    Continues t b ↔ numberStep (label, ending) b ≠ none := by
  constructor
  · intro hcontinues
    obtain ⟨type, more, hnumber⟩ := hcontinues
    obtain ⟨label', hexec, -⟩ := completes_iff.mpr (numberText_iff.mpr hnumber)
    rw [exec_append, h, Option.bind_some] at hexec
    intro hnone
    rw [exec, hnone] at hexec
    cases hexec
  · intro hne
    obtain ⟨⟨label', ty⟩, hstep⟩ := Option.ne_none_iff_exists'.mp hne
    obtain ⟨type, more, hmore⟩ := exists_completes ty label'
    obtain ⟨last, hexec, hdone⟩ := completes_iff.mpr hmore
    refine ⟨type, more, numberText_iff.mp (completes_iff.mp ⟨last, ?_, hdone⟩)⟩
    rw [exec_append, h, Option.bind_some, exec_cons_of_step hstep, hexec]

/-- **Numbers are read exactly**, each as far as it goes. -/
theorem scanNumber_iff {input t rest : Bytes} {ending : NumberType} :
    scanNumber input = some (ending, t, rest) ↔
      input = t ++ rest ∧ NumberText ending t ∧ ∀ b tail, rest = b :: tail → ¬ Continues t b := by
  rw [scanNumber, scanNumberFrom_iff]
  constructor
  · intro hexists
    obtain ⟨t', label, rfl, rfl, hexec, hdone, hstop⟩ := hexists
    refine ⟨rfl, numberText_iff.mp (completes_iff.mp ⟨label, hexec, hdone⟩), ?_⟩
    intro b tail heq hcontinues
    exact (continues_iff hexec).mp hcontinues (hstop b tail heq)
  · intro hparts
    obtain ⟨rfl, hnumber, hstop⟩ := hparts
    obtain ⟨label, hexec, hdone⟩ := completes_iff.mpr (numberText_iff.mpr hnumber)
    refine ⟨t, label, rfl, rfl, hexec, hdone, fun b tail heq => ?_⟩
    by_contra hne
    exact hstop b tail heq ((continues_iff hexec).mpr hne)

end JsonText
