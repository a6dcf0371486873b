import StackLisp.Proofs.Arena.Reached
import StackLisp.Proofs.Code.Constants
import StackLisp.Proofs.Matching
import StackLisp.Value.Printer

/-!
# Values without their locations

Pairs remember where they were read.  `Value.bare` forgets that, also in the code of functions, and
two values with the same bare value are **the same up to locations**.

Nothing that is computed from values depends on more than their bare values.  So the results of an
operation match if its operands are the same up to locations (`Parameters.bind_matches`,
`Primitive.apply_matches`).  An error holds the values that it is about, so errors are compared
up to locations too (`Fault.bare`).  They say the same then, since the text of a value does not
show where it was read.
-/

namespace StackLisp

mutual

/-- **The value without its locations.** -/
def Value.bare : Value → Value
  | .nil => .nil
  | .bool b => .bool b
  | .number x => .number x
  | .text s => .text s
  | .symbol name => .symbol name
  | .quoted v => .quoted v.bare
  | .pair head tail _ => .pair head.bare tail.bare none
  | .template params code => .template params (bareCode code)
  | .closure params code scope => .closure params (bareCode code) scope

/-- Code without the locations in its constants. -/
def bareCode : List Instruction → List Instruction
  | [] => []
  | i :: code => i.bare :: bareCode code

/-- The instruction without the locations in its constant. -/
def Instruction.bare : Instruction → Instruction
  | .pushConst v => .pushConst v.bare
  | .pop => .pop
  | .lookup name => .lookup name
  | .define name => .define name
  | .jumpIfTruthy offset => .jumpIfTruthy offset
  | .jumpIfFalsy offset => .jumpIfFalsy offset
  | .ret => .ret
  | .makeClosure => .makeClosure
  | .call argc => .call argc
  | .callPrimitive name argc => .callPrimitive name argc
  | .apply => .apply
  | .display => .display
  | .undefined opcode => .undefined opcode

end

theorem bareCode_eq (code : Code) : bareCode code = code.map Instruction.bare := by
  induction code with
  | nil => rfl
  | cons i code ih => rw [bareCode, ih, List.map_cons]

mutual

/-- A value without locations has none to leave out. -/
@[simp] theorem Value.bare_bare : ∀ v : Value, v.bare.bare = v.bare
  | .quoted v => congrArg Value.quoted v.bare_bare
  | .pair head tail _ => by simp only [Value.bare, head.bare_bare, tail.bare_bare]
  | .template params code => congrArg (Value.template params) (bareCode_bareCode code)
  | .closure params code scope => congrArg (Value.closure params · scope) (bareCode_bareCode code)
  | .nil | .bool _ | .number _ | .text _ | .symbol _ => rfl

@[simp] theorem bareCode_bareCode : ∀ code : List Instruction,
    bareCode (bareCode code) = bareCode code
  | [] => rfl
  | i :: code => by simp only [bareCode, i.bare_bare, bareCode_bareCode code]

@[simp] theorem Instruction.bare_bare : ∀ i : Instruction, i.bare.bare = i.bare
  | .pushConst v => congrArg Instruction.pushConst v.bare_bare
  | .pop | .lookup _ | .define _ | .jumpIfTruthy _ | .jumpIfFalsy _ | .ret | .makeClosure | .call _
  | .callPrimitive _ _ | .apply | .display | .undefined _ => rfl

end

@[simp] theorem bareCode_append (c d : Code) : bareCode (c ++ d) = bareCode c ++ bareCode d := by
  simp [bareCode_eq]

@[simp] theorem length_bareCode (c : Code) : (bareCode c).length = c.length := by
  simp [bareCode_eq]

namespace Value

/-! ## Views of a value -/

@[simp] theorem isFalsy_bare (v : Value) : v.bare.isFalsy = v.isFalsy := by
  cases v <;> rfl

@[simp] theorem symbol?_bare (v : Value) : v.bare.symbol? = v.symbol? := by
  cases v <;> rfl

@[simp] theorem isNil_bare (v : Value) : v.bare.isNil = v.isNil := by
  cases v <;> rfl

@[simp] theorem elements_bare (v : Value) : v.bare.elements = v.elements.map bare := by
  cases v with
  | pair head tail loc => exact congrArg (head.bare :: ·) (elements_bare tail)
  | _ => rfl

@[simp] theorem ending_bare (v : Value) : v.bare.ending = v.ending.bare := by
  cases v with
  | pair head tail loc => exact ending_bare tail
  | _ => rfl

@[simp] theorem list?_bare (v : Value) : v.bare.list? = v.list?.map (List.map bare) := by
  unfold list?
  rw [ending_bare, isNil_bare, elements_bare]
  split <;> rfl

@[simp] theorem bare_ofList (items : List Value) (loc : Option Location) (last : Value) :
    (ofList items loc last).bare = ofList (items.map bare) none last.bare := by
  induction items with
  | nil => rfl
  | cons item items ih => exact congrArg (pair item.bare · none) ih

@[simp] theorem holds_bare {id : ScopeId} : ∀ v : Value, v.bare.Holds id ↔ v.Holds id
  | .nil | .bool _ | .number _ | .text _ | .symbol _ | .template _ _ => by
    constructor <;> intro h <;> cases h
  | .quoted v => by
    have ih : v.bare.Holds id ↔ v.Holds id := holds_bare v
    exact ⟨fun | .quoted h => .quoted (ih.mp h), fun | .quoted h => .quoted (ih.mpr h)⟩
  | .pair head tail _ => by
    have ihh : head.bare.Holds id ↔ head.Holds id := holds_bare head
    have iht : tail.bare.Holds id ↔ tail.Holds id := holds_bare tail
    exact ⟨fun | .head h => .head (ihh.mp h) | .tail h => .tail (iht.mp h),
      fun | .head h => .head (ihh.mpr h) | .tail h => .tail (iht.mpr h)⟩
  | .closure params code scope =>
    ⟨fun | .closure _ _ => .closure _ _, fun | .closure _ _ => .closure _ _⟩

/-- Values hold the same scopes without their locations. -/
theorem exists_holds_bare {values : List Value} {id : ScopeId} :
    (∃ w ∈ values.map bare, w.Holds id) ↔ ∃ v ∈ values, v.Holds id := by
  constructor
  · rintro ⟨w, hw, hid⟩
    obtain ⟨v, hv, rfl⟩ := List.mem_map.mp hw
    exact ⟨v, hv, (holds_bare v).mp hid⟩
  · rintro ⟨v, hv, hid⟩
    exact ⟨v.bare, List.mem_map_of_mem hv, (holds_bare v).mpr hid⟩

theorem mem_bareCode {code : Code} {w : Value} :
    Instruction.pushConst w ∈ bareCode code ↔
      ∃ v, Instruction.pushConst v ∈ code ∧ v.bare = w := by
  rw [bareCode_eq, List.mem_map]
  constructor
  · rintro ⟨i, hi, hw⟩
    cases i <;> cases hw
    exact ⟨_, hi, rfl⟩
  · rintro ⟨v, hv, rfl⟩
    exact ⟨_, hv, rfl⟩

/-- A value is plain if it is so without its locations. -/
theorem plain_of_bare {v : Value} (h : v.bare.Plain) : v.Plain := by
  generalize hw : v.bare = w at h
  induction h generalizing v with
  | nil => cases v <;> cases hw; exact .nil
  | bool b => cases v <;> cases hw; exact .bool b
  | number x => cases v <;> cases hw; exact .number x
  | text s => cases v <;> cases hw; exact .text s
  | symbol name => cases v <;> cases hw; exact .symbol name
  | quoted _ ih => cases v <;> cases hw; exact .quoted (ih rfl)
  | pair _ _ ihh iht => cases v <;> cases hw; exact .pair (ihh rfl) (iht rfl)
  | template _ ih =>
    cases v <;> cases hw
    exact .template fun v hv => ih v.bare (mem_bareCode.mpr ⟨v, hv, rfl⟩) rfl

theorem Plain.bare {v : Value} (h : v.Plain) : v.bare.Plain := by
  induction h with
  | nil => exact .nil
  | bool b => exact .bool b
  | number x => exact .number x
  | text s => exact .text s
  | symbol name => exact .symbol name
  | quoted _ ih => exact .quoted ih
  | pair _ _ ihh iht => exact .pair ihh iht
  | template _ ih =>
    refine .template fun w hw => ?_
    obtain ⟨v, hv, rfl⟩ := mem_bareCode.mp hw
    exact ih v hv

mutual

/-- **The text of a value** does not show locations. -/
@[simp] theorem toText_bare : ∀ v : Value, v.bare.toText = v.toText
  | .pair head tail _ => by rw [bare, toText, toText, toText_bare head, tailWords_bare tail]
  | .quoted v => by rw [bare, toText, toText, toText_bare v]
  | .nil | .bool _ | .number _ | .text _ | .symbol _ | .template _ _ | .closure _ _ _ => rfl

@[simp] theorem tailWords_bare : ∀ v : Value, v.bare.tailWords = v.tailWords
  | .pair head tail _ => by rw [bare, tailWords, tailWords, toText_bare head, tailWords_bare tail]
  | .quoted v => by rw [bare, tailWords, tailWords, toText_bare v]
  | .nil | .bool _ | .number _ | .text _ | .symbol _ | .template _ _ | .closure _ _ _ => rfl

end

end Value

mutual

/-- **Equality of values** does not compare locations. -/
theorem Value.equal_bare : ∀ a b : Value, a.bare.equal b.bare = a.equal b
  | .quoted a, b => by
    cases b with
    | quoted b => exact a.equal_bare b
    | _ => rfl
  | .pair a as _, b => by
    cases b with
    | pair b bs _ => simp only [Value.bare, Value.equal, a.equal_bare b, as.equal_bare bs]
    | _ => rfl
  | .template _ a, b => by
    cases b with
    | template _ b => simp only [Value.bare, Value.equal, codeEqual_bare a b]
    | _ => rfl
  | .closure _ a _, b => by
    cases b with
    | closure _ b _ => simp only [Value.bare, Value.equal, codeEqual_bare a b]
    | _ => rfl
  | .nil, b | .bool _, b | .number _, b | .text _, b | .symbol _, b => by cases b <;> rfl

theorem codeEqual_bare : ∀ a b : List Instruction,
    codeEqual (bareCode a) (bareCode b) = codeEqual a b
  | [], [] => rfl
  | a :: as, b :: bs => by simp only [bareCode, codeEqual, a.equal_bare b, codeEqual_bare as bs]
  | [], _ :: _ => rfl
  | _ :: _, [] => rfl

theorem Instruction.equal_bare : ∀ a b : Instruction, a.bare.equal b.bare = a.equal b
  | .pushConst a, b => by
    cases b with
    | pushConst b => exact a.equal_bare b
    | _ => rfl
  | .pop, b | .lookup _, b | .define _, b | .jumpIfTruthy _, b | .jumpIfFalsy _, b | .ret, b
  | .makeClosure, b | .call _, b | .callPrimitive _ _, b | .apply, b | .display, b
  | .undefined _, b => by cases b <;> rfl

end

/-! ## Errors -/

/-- **The fault without the locations** of the values that it is about. -/
def Fault.bare : Fault → Fault
  | wrongArguments params args => wrongArguments params (args.map Value.bare)
  | notNumbers a b => notNumbers a.bare b.bare
  | notNumber v => notNumber v.bare
  | notBoolean v => notBoolean v.bare
  | notPair name v => notPair name v.bare
  | notTexts a b => notTexts a.bare b.bare
  | notFunction v => notFunction v.bare
  | notTemplate v => notTemplate v.bare
  | notCallee v => notCallee v.bare
  | notArguments v => notArguments v.bare
  | fault => fault

namespace Fault

theorem kind_bare (f : Fault) : f.bare.kind = f.kind := by
  cases f <;> rfl

theorem message_bare (f : Fault) : f.bare.message = f.message := by
  have hargs : ∀ args : List Value, Value.listText (args.map Value.bare) = Value.listText args := by
    intro args
    rw [Value.listText, Value.listText, List.isEmpty_map, List.map_map]
    have htexts : Value.toText ∘ Value.bare = Value.toText := funext Value.toText_bare
    rw [htexts]
  cases f with
  | wrongArguments params args =>
    dsimp only [bare, message]
    rw [hargs]
  | notNumbers a b | notTexts a b =>
    dsimp only [bare, message]
    rw [Value.toText_bare, Value.toText_bare]
  | notNumber v | notBoolean v | notPair _ v | notFunction v | notTemplate v | notCallee v
  | notArguments v =>
    dsimp only [bare, message]
    rw [Value.toText_bare]
  | _ => rfl

/-- Faults that are the same up to locations are of one kind. -/
theorem kind_of_bare {f f' : Fault} (h : f'.bare = f.bare) : f'.kind = f.kind := by
  rw [← kind_bare, h, kind_bare]

/-- They say the same. -/
theorem message_of_bare {f f' : Fault} (h : f'.bare = f.bare) : f'.message = f.message := by
  rw [← message_bare, h, message_bare]

end Fault

/-- The error without locations. -/
def ParameterError.bare : ParameterError → ParameterError
  | notSymbols form => notSymbols form.bare
  | misplacedDot names => misplacedDot names

theorem ParameterError.message_bare (e : ParameterError) : e.bare.message = e.message := by
  cases e with
  | notSymbols form =>
    dsimp only [bare, message]
    rw [Value.toText_bare]
  | misplacedDot names => rfl

/-! ## Parameters and their bindings -/

namespace Bindings

/-- Bindings of the same names to the values without their locations. -/
def bare (bindings : Bindings) : Bindings :=
  bindings.map fun entry => (entry.1, entry.2.bare)

@[simp] theorem names_bare (bindings : Bindings) : bindings.bare.names = bindings.names := by
  simp [bare, names]

@[simp] theorem values_bare (bindings : Bindings) :
    bindings.bare.values = bindings.values.map Value.bare := by
  simp [bare, values]

theorem get?_bare (bindings : Bindings) (name : String) :
    bindings.bare.get? name = (bindings.get? name).map Value.bare := by
  induction bindings with
  | nil => rfl
  | cons entry rest ih =>
    simp only [bare, List.map_cons, get?] at ih ⊢
    rw [ih]
    split <;> rfl

theorem set_bare (bindings : Bindings) (name : String) (value : Value) :
    bindings.bare.set name value.bare = (bindings.set name value).bare := by
  induction bindings with
  | nil => rfl
  | cons entry rest ih =>
    simp only [bare, List.map_cons, set] at ih ⊢
    rw [ih]
    split <;> rfl

theorem ofPairs_bare (pairs : List (String × Value)) :
    ofPairs (pairs.map fun entry => (entry.1, entry.2.bare)) = (ofPairs pairs).bare := by
  suffices h : ∀ (start : Bindings),
      (pairs.map fun entry => (entry.1, entry.2.bare)).foldl
        (fun bindings p => bindings.set p.1 p.2) start.bare =
      (pairs.foldl (fun bindings p => bindings.set p.1 p.2) start).bare from h []
  induction pairs with
  | nil => exact fun _ => rfl
  | cons entry pairs ih =>
    intro start
    rw [List.map_cons, List.foldl_cons, List.foldl_cons, set_bare]
    exact ih _

end Bindings

namespace Parameters

@[simp] theorem names?_bare (form : Value) : names? form.bare = names? form := by
  have hitems : ∀ items : List Value,
      (items.map Value.bare).mapM Value.symbol? = items.mapM Value.symbol? := by
    intro items
    induction items with
    | nil => rfl
    | cons item items ih => simp [List.mapM_cons, ih]
  unfold names?
  rw [Value.list?_bare]
  cases form.list? with
  | none => rfl
  | some items => exact hitems items

/-- **The parameters of a parameter list** do not depend on its locations. -/
theorem ofForm_matches {form form' : Value} (h : form'.bare = form.bare) :
    Matches (Upto ParameterError.bare) Eq (ofForm form) (ofForm form') := by
  have hnames : names? form' = names? form := by rw [← names?_bare, h, names?_bare]
  unfold ofForm
  rw [hnames]
  split
  · exact .refl _
  · exact .error (congrArg ParameterError.notSymbols h)

/-- **The bindings of a call.** -/
theorem bind_matches (params : Parameters) {args args' : List Value}
    (ha : args'.map Value.bare = args.map Value.bare) :
    Matches (Upto Fault.bare) (Upto Bindings.bare) (params.bind args) (params.bind args') := by
  have hlength : args'.length = args.length := by simpa using congrArg List.length ha
  have hpairs : ∀ items : List Value, (Bindings.ofPairs (params.required.zip items)).bare =
      Bindings.ofPairs (params.required.zip (items.map Value.bare)) := by
    intro items
    rw [List.zip_map_right, ← Bindings.ofPairs_bare]
    rfl
  have hrequired : (Bindings.ofPairs (params.required.zip args')).bare =
      (Bindings.ofPairs (params.required.zip args)).bare := by rw [hpairs, hpairs, ha]
  unfold bind
  rw [hlength]
  split
  · cases params.rest with
    | none => exact .ok hrequired
    | some rest =>
      refine .ok ?_
      show Bindings.bare _ = Bindings.bare _
      rw [← Bindings.set_bare, ← Bindings.set_bare, hrequired, Value.bare_ofList, Value.bare_ofList,
        List.map_drop, List.map_drop, ha]
  · exact .error (congrArg (Fault.wrongArguments params) ha)

end Parameters

/-! ## Primitives -/

namespace Primitive

theorem onNumbers_bare {f : Float → Float → Value} (hf : ∀ x y, (f x y).bare = f x y)
    (a b : Value) :
    onNumbers f a.bare b.bare = ((onNumbers f a b).map Value.bare).mapError Fault.bare := by
  cases a with
  | number x =>
    cases b with
    | number y => exact congrArg Except.ok (hf x y).symm
    | _ => rfl
  | _ => rfl

theorem sum_bare (args : List Value) (total : Float) :
    sum total (args.map Value.bare) = ((sum total args).map Value.bare).mapError Fault.bare := by
  induction args generalizing total with
  | nil => rfl
  | cons v args ih =>
    cases v with
    | number x => exact ih (total + x)
    | _ => rfl

/-- **What a primitive does** to operands without locations. -/
theorem apply_bare (p : Primitive) (args : List Value) :
    p.apply (args.map Value.bare) = ((p.apply args).map Value.bare).mapError Fault.bare := by
  match args with
  | [] => cases p <;> rfl
  | [v] =>
    cases p with
    | add => exact sum_bare [v] 0
    | toText => simp [apply, Except.map, Value.bare]
    | _ => cases v <;> rfl
  | [a, b] =>
    cases p with
    | add => exact sum_bare [a, b] 0
    | mul | sub | div | mod | pow | lt | gt => exact onNumbers_bare (fun _ _ => rfl) a b
    | eq => simp [apply, Except.map, Value.bare, Value.equal_bare]
    | appendText =>
      cases a with
      | text s => cases b <;> rfl
      | _ => rfl
    | cons => rfl
    | _ => simp [apply, Except.map, Fault.bare]
  | a :: b :: c :: rest =>
    cases p with
    | add => exact sum_bare (a :: b :: c :: rest) 0
    | _ => simp [apply, Except.map, Fault.bare]

/-- **What a primitive does** does not depend on locations. -/
theorem apply_matches (p : Primitive) {args args' : List Value}
    (ha : args'.map Value.bare = args.map Value.bare) :
    Matches (Upto Fault.bare) (Upto Value.bare) (p.apply args) (p.apply args') :=
  .of_eq (by rw [← apply_bare, ha, apply_bare])

end Primitive

end StackLisp
