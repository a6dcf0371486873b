import StackLisp.Primitive

/-!
# What primitives give

A primitive makes a number, a boolean or a text of its operands, or it puts two of them into a
pair or takes a pair apart (`Primitive.made_of_apply`).  If it fails, an operand is of the wrong
kind or their number is wrong (`Primitive.kind_of_apply`).
-/

namespace StackLisp.Primitive

/-- **The values that primitives make** of their operands. -/
inductive Made (args : List Value) : Value → Prop
  | bool (b : Bool) : Made args (.bool b)
  | number (x : Float) : Made args (.number x)
  | text (s : String) : Made args (.text s)
  | pair {a b : Value} (ha : a ∈ args) (hb : b ∈ args) : Made args (.pair a b none)
  | head {head tail : Value} {loc : Option Location} (h : .pair head tail loc ∈ args) :
      Made args head
  | tail {head tail : Value} {loc : Option Location} (h : .pair head tail loc ∈ args) :
      Made args tail

/-- A sum is a number, unless an operand is none. -/
theorem sum_cases (args : List Value) (x : Float) :
    (∃ y, sum x args = .ok (.number y)) ∨ ∃ f, sum x args = .error f ∧ f.kind = .type := by
  induction args generalizing x with
  | nil => exact .inl ⟨x, rfl⟩
  | cons a args ih =>
    cases a with
    | number y => exact ih (x + y)
    | _ => exact .inr ⟨_, rfl, rfl⟩

/-- An operation on numbers gives what it should, unless an operand is no number. -/
theorem onNumbers_cases (g : Float → Float → Value) (a b : Value) :
    (∃ x y, onNumbers g a b = .ok (g x y)) ∨ ∃ f, onNumbers g a b = .error f ∧ f.kind = .type := by
  unfold onNumbers
  split
  · exact .inl ⟨_, _, rfl⟩
  · exact .inr ⟨_, rfl, rfl⟩

theorem made_of_onNumbers {g : Float → Float → Value} {a b v : Value} {args : List Value}
    (hg : ∀ x y, Made args (g x y)) (h : onNumbers g a b = .ok v) : Made args v := by
  rcases onNumbers_cases g a b with ⟨x, y, hn⟩ | ⟨f, hn, -⟩
  · cases hn.symm.trans h
    exact hg x y
  · cases hn.symm.trans h

theorem kind_of_onNumbers {g : Float → Float → Value} {a b : Value} {fault : Fault}
    (h : onNumbers g a b = .error fault) : fault.kind = .type := by
  rcases onNumbers_cases g a b with ⟨x, y, hn⟩ | ⟨f, hn, hf⟩
  · cases hn.symm.trans h
  · cases hn.symm.trans h
    exact hf

/-- **What a primitive gives is made of its operands.** -/
theorem made_of_apply {p : Primitive} {args : List Value} {v : Value}
    (h : p.apply args = .ok v) : Made args v := by
  unfold apply at h
  split at h
  · rcases sum_cases args 0 with ⟨y, hs⟩ | ⟨f, hs, -⟩
    · cases hs.symm.trans h
      exact .number y
    · cases hs.symm.trans h
  · exact made_of_onNumbers (fun _ _ => .number _) h
  · exact made_of_onNumbers (fun _ _ => .number _) h
  · exact made_of_onNumbers (fun _ _ => .number _) h
  · exact made_of_onNumbers (fun _ _ => .number _) h
  · exact made_of_onNumbers (fun _ _ => .number _) h
  · exact made_of_onNumbers (fun _ _ => .bool _) h
  · exact made_of_onNumbers (fun _ _ => .bool _) h
  all_goals cases h
  · exact .bool _
  · exact .pair (by simp) (by simp)
  · exact .text _
  · exact .number _
  · exact .bool _
  · exact .head List.mem_cons_self
  · exact .tail List.mem_cons_self
  all_goals first | exact .bool _ | exact .text _

/-- **A primitive with the right number of operands fails** only by an operand of the wrong
kind. -/
theorem type_of_apply {p : Primitive} {args : List Value} {fault : Fault}
    (ha : p.arity.all (· = args.length) = true) (h : p.apply args = .error fault) :
    fault.kind = .type := by
  have one : args.length = 1 → ∃ a, args = [a] := List.length_eq_one_iff.mp
  have two : args.length = 2 → ∃ a b, args = [a, b] := fun hl =>
    match args, hl with
    | [a, b], _ => ⟨a, b, rfl⟩
  cases p with
  | add =>
    rcases sum_cases args 0 with ⟨y, hs⟩ | ⟨f, hs, hf⟩
    · cases hs.symm.trans h
    · cases hs.symm.trans h
      exact hf
  | mul | sub | div | mod | pow | lt | gt =>
    obtain ⟨a, b, rfl⟩ := two (of_decide_eq_true ha).symm
    exact kind_of_onNumbers h
  | eq | cons =>
    obtain ⟨a, b, rfl⟩ := two (of_decide_eq_true ha).symm
    cases h
  | appendText =>
    obtain ⟨a, b, rfl⟩ := two (of_decide_eq_true ha).symm
    cases a <;> cases b <;> cases h <;> rfl
  | abs | not | car | cdr =>
    obtain ⟨v, rfl⟩ := one (of_decide_eq_true ha).symm
    cases v <;> cases h <;> rfl
  | isPair | isNil | isNumber | isFunction | isSymbol | isBoolean | isText | toText =>
    obtain ⟨v, rfl⟩ := one (of_decide_eq_true ha).symm
    cases h

/-- **How a primitive fails**: by an operand of the wrong kind, or a wrong number of them. -/
theorem kind_of_apply {p : Primitive} {args : List Value} {fault : Fault}
    (h : p.apply args = .error fault) : fault.kind = .type ∨ fault.kind = .arity := by
  cases ha : p.arity.all (· = args.length) with
  | true => exact .inl (type_of_apply ha h)
  | false =>
    unfold apply at h
    split at h
    · cases ha
    all_goals first
      | exact .inl (kind_of_onNumbers h)
      | cases h
    all_goals first
      | exact .inl rfl
      | exact .inr rfl

end StackLisp.Primitive
