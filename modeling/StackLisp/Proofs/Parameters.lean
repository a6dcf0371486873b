import StackLisp.Proofs.Code.Names

/-!
# Parameter lists and calls

Of the dots in a parameter list the first one counts: the names before it take one argument each,
and exactly one name has to follow it (`Parameters.Splits`).  So the dot may stand nowhere, or once
and before the last name, as it should (`Parameters.DotPlaced`).  But a list that ends in two dots
is accepted too, and **its last dot becomes the name for further arguments**
(`Parameters.not_dotPlaced_two_dots`).

Whatever list the parameters came from, **a call gives all of its arguments to their names**, and
binds nothing else, if no name stands there twice (`Parameters.Binds`).
-/

namespace StackLisp

/-! ## Bindings with distinct names -/

namespace Bindings

theorem set_of_not_mem {bindings : Bindings} {name : String} (h : name ∉ bindings.names)
    (value : Value) : bindings.set name value = bindings ++ [(name, value)] := by
  induction bindings with
  | nil => rfl
  | cons entry rest ih =>
    obtain ⟨key, old⟩ := entry
    simp only [names, List.map_cons, List.mem_cons, not_or] at h
    rw [set, if_neg (Ne.symm h.1), ih h.2, List.cons_append]

/-- **Distinct names are bound in their order.** -/
theorem ofPairs_of_nodup {pairs : List (String × Value)} (h : (names pairs).Nodup) :
    ofPairs pairs = pairs := by
  have key : ∀ (pairs : List (String × Value)) (start : Bindings), (names (start ++ pairs)).Nodup →
      pairs.foldl (fun bindings p => bindings.set p.1 p.2) start = start ++ pairs := by
    intro pairs
    induction pairs with
    | nil => exact fun start _ => (List.append_nil start).symm
    | cons p pairs ih =>
      intro start h
      have hnew : p.1 ∉ names start := by
        simp only [names, List.map_append, List.map_cons] at h
        exact fun hm => (List.nodup_append.mp h).2.2 _ hm _ List.mem_cons_self rfl
      rw [List.foldl_cons, set_of_not_mem hnew, ih _ (by simpa using h), List.append_assoc]
      rfl
  exact key pairs [] h

/-- The values of distinct names are those that they were paired with. -/
theorem map_get?_zip {keys : List String} (h : keys.Nodup) {values : List Value}
    (hlen : keys.length ≤ values.length) :
    keys.map (fun key => get? key (keys.zip values)) = (values.take keys.length).map some := by
  induction keys generalizing values with
  | nil => simp
  | cons key keys ih =>
    obtain ⟨hkey, hkeys⟩ := List.nodup_cons.mp h
    cases values with
    | nil => simp at hlen
    | cons value values =>
      have hothers : keys.map (fun other => get? other ((key, value) :: keys.zip values)) =
          keys.map (fun other => get? other (keys.zip values)) := by
        refine List.map_congr_left fun other hother => ?_
        rw [get?, if_neg]
        rintro rfl
        exact hkey hother
      rw [List.zip_cons_cons, List.map_cons, hothers, ih hkeys (by simpa using hlen)]
      simp [get?]

end Bindings

namespace Parameters

/-! ## Splitting at the dot -/

/-- **The parameters that names stand for**, as their first dot splits them. -/
inductive Splits : List String → Parameters → Prop
  | fixed {names : List String} (h : dot ∉ names) : Splits names ⟨names, none⟩
  | rest {front : List String} (last : String) (h : dot ∉ front) :
      Splits (front ++ [dot, last]) ⟨front, some last⟩

/-- **Where the dot should stand**: nowhere, or once, before the last name. -/
def DotPlaced (names : List String) : Prop :=
  dot ∉ names ∨ names.count dot = 1 ∧ ∃ front last, names = front ++ [dot, last]

/-- The names end in two dots, and have no others. -/
def EndsInTwoDots (names : List String) : Prop :=
  ∃ front, dot ∉ front ∧ names = front ++ [dot, dot]

/-- The form is a proper list of symbols with these names. -/
def IsNames (form : Value) (names : List String) : Prop :=
  form.list? = some (names.map .symbol)

theorem mapM_symbol?_eq_some {items : List Value} {names : List String} :
    items.mapM Value.symbol? = some names ↔ items = names.map .symbol := by
  induction items generalizing names with
  | nil => cases names <;> simp
  | cons item items ih =>
    simp only [List.mapM_cons, Option.bind_eq_bind, Option.bind_eq_some_iff, Option.pure_def,
      Option.some.injEq, ih]
    constructor
    · rintro ⟨name, hname, rest, rfl, rfl⟩
      rw [Code.eq_symbol_of_symbol? hname, List.map_cons]
    · intro h
      obtain ⟨name, rest, rfl, rfl, rfl⟩ := List.map_eq_cons_iff.mp h.symm
      exact ⟨name, rfl, rest, rfl, rfl⟩

theorem names?_eq_some {form : Value} {names : List String} :
    names? form = some names ↔ IsNames form names := by
  simp only [names?, Option.bind_eq_some_iff, mapM_symbol?_eq_some, IsNames, exists_eq_right]

theorem ne_dot_of_mem {front : List String} (h : dot ∉ front) :
    ∀ name ∈ front, decide (name ≠ dot) = true := by
  intro name hname
  rw [decide_eq_true_eq]
  rintro rfl
  exact h hname

theorem ofNames_of_not_mem {names : List String} (h : dot ∉ names) :
    ofNames names = .ok ⟨names, none⟩ := by
  have hdrop : (names ++ []).dropWhile (· ≠ dot) = [] :=
    List.dropWhile_append_of_pos (ne_dot_of_mem h)
  rw [List.append_nil] at hdrop
  rw [ofNames, hdrop]

/-- **The first dot splits the names**, and exactly one has to follow it. -/
theorem ofNames_append {front : List String} (h : dot ∉ front) (back : List String) :
    ofNames (front ++ dot :: back) =
      match back with
      | [last] => .ok ⟨front, some last⟩
      | _ => .error (.misplacedDot (front ++ dot :: back)) := by
  have hdrop : (front ++ dot :: back).dropWhile (· ≠ dot) = dot :: back := by
    rw [List.dropWhile_append_of_pos (ne_dot_of_mem h)]
    simp
  have htake : (front ++ dot :: back).takeWhile (· ≠ dot) = front := by
    rw [List.takeWhile_append_of_pos (ne_dot_of_mem h)]
    simp
  rw [ofNames, hdrop, htake]
  match back with
  | [] => rfl
  | [_] => rfl
  | _ :: _ :: _ => rfl

theorem ofNames_eq_ok {names : List String} {params : Parameters} :
    ofNames names = .ok params ↔ Splits names params := by
  constructor
  · intro h
    by_cases hdot : dot ∈ names
    · obtain ⟨front, back, rfl, hfront⟩ := List.eq_append_cons_of_mem hdot
      rw [ofNames_append hfront] at h
      match back, h with
      | [last], h =>
        cases h
        exact .rest last hfront
    · rw [ofNames_of_not_mem hdot] at h
      cases h
      exact .fixed hdot
  · intro h
    cases h with
    | fixed h => exact ofNames_of_not_mem h
    | rest last h => exact ofNames_append h [last]

/-- **Which forms are parameter lists**, and what they stand for. -/
theorem ofForm_eq_ok {form : Value} {params : Parameters} :
    ofForm form = .ok params ↔ ∃ names, IsNames form names ∧ Splits names params := by
  simp only [← names?_eq_some, ← ofNames_eq_ok, ofForm]
  cases names? form <;> simp

/-- **What is accepted** are names with the dot where it should stand, and those that end in two
dots. -/
theorem exists_splits_iff {names : List String} :
    (∃ params, Splits names params) ↔ DotPlaced names ∨ EndsInTwoDots names := by
  constructor
  · rintro ⟨_, hnone | ⟨last, hfront⟩⟩
    · exact .inl (.inl ‹_›)
    · rename_i front
      by_cases hlast : last = dot
      · exact .inr ⟨front, hfront, hlast ▸ rfl⟩
      · refine .inl (.inr ⟨?_, front, last, rfl⟩)
        rw [List.count_append, List.count_eq_zero_of_not_mem hfront, List.count_cons_self,
          List.count_singleton, if_neg (by simpa using hlast)]
  · rintro ((hnone | ⟨hcount, front, last, rfl⟩) | ⟨front, hfront, rfl⟩)
    · exact ⟨_, .fixed hnone⟩
    · refine ⟨_, .rest last fun hfront => ?_⟩
      have hpos := List.count_pos_iff.mpr hfront
      rw [List.count_append, List.count_cons_self] at hcount
      omega
    · exact ⟨_, .rest dot hfront⟩

/-- **The dot is a name only after another dot.** -/
theorem Splits.dot_mem_iff {names : List String} {params : Parameters} (hs : Splits names params) :
    dot ∈ params.names ↔ EndsInTwoDots names := by
  cases hs with
  | fixed h =>
    constructor
    · intro hm
      exact absurd (by simpa [Parameters.names] using hm) h
    · rintro ⟨front, -, rfl⟩
      simp at h
  | @rest front last h =>
    simp only [Parameters.names, Option.toList_some, List.mem_append, List.mem_singleton, h,
      false_or]
    constructor
    · rintro rfl
      exact ⟨front, h, rfl⟩
    · rintro ⟨start, -, heq⟩
      obtain ⟨-, hlast⟩ := List.append_inj' heq rfl
      cases hlast
      rfl

/-! ## Calls -/

/-- **What a call binds**: the names of the parameters and no others, the required ones to the first
arguments in order, and the one for further arguments to the list of all others. -/
structure Binds (params : Parameters) (args : List Value) (bindings : Bindings) : Prop where
  names : bindings.names = params.names
  lossless : ∃ firsts others, firsts ++ others = args ∧
    params.required.map (bindings.get? ·) = firsts.map some ∧
    (params.rest = none → others = []) ∧
    ∀ name, params.rest = some name → ∃ v, bindings.get? name = some v ∧ v.list? = some others

/-- A call succeeds if there are as many arguments as names, or at least as many where further
arguments are taken. -/
theorem exists_bind_iff {params : Parameters} {args : List Value} :
    (∃ bindings, params.bind args = .ok bindings) ↔
      if params.rest.isSome then params.required.length ≤ args.length
      else args.length = params.required.length := by
  obtain ⟨required, rest⟩ := params
  cases rest with
  | none =>
    by_cases h : args.length = required.length
    · simp [bind, accepts, h]
    · simp [bind, accepts, h]
  | some last =>
    by_cases h : required.length ≤ args.length
    · simp [bind, accepts, h]
    · simp [bind, accepts, h]

/-- **A call loses no arguments**, if the names are distinct. -/
theorem binds_of_bind {params : Parameters} {args : List Value} {bindings : Bindings}
    (hd : params.names.Nodup) (h : params.bind args = .ok bindings) :
    params.Binds args bindings := by
  have hfits := exists_bind_iff.mp ⟨bindings, h⟩
  obtain ⟨required, rest⟩ := params
  have hlen : required.length ≤ args.length := by
    split at hfits
    · exact hfits
    · exact Nat.le_of_eq hfits.symm
  obtain ⟨hrequired, -, hapart⟩ := List.nodup_append.mp hd
  have hkeys : Bindings.names (required.zip args) = required := List.map_fst_zip hlen
  have hpairs : Bindings.ofPairs (required.zip args) = required.zip args :=
    Bindings.ofPairs_of_nodup (hkeys.symm ▸ hrequired)
  have hvalues := Bindings.map_get?_zip hrequired hlen
  cases rest with
  | none =>
    simp only [Option.isSome_none, Bool.false_eq_true, if_false] at hfits
    obtain rfl : required.zip args = bindings := by simpa [bind, accepts, hfits, hpairs] using h
    refine ⟨by simpa [names] using hkeys, args, [], List.append_nil _, ?_, fun _ => rfl, by simp⟩
    rwa [List.take_of_length_le (Nat.le_of_eq hfits)] at hvalues
  | some last =>
    have hlast : last ∉ required := fun hm => hapart last hm last (by simp) rfl
    obtain rfl : Bindings.set last (.ofList (args.drop required.length) none .nil)
        (required.zip args) = bindings := by simpa [bind, accepts, hlen, hpairs] using h
    refine ⟨?_, args.take required.length, args.drop required.length, List.take_append_drop _ _,
      ?_, by simp, ?_⟩
    · rw [Bindings.set_of_not_mem (hkeys.symm ▸ hlast), Bindings.names, List.map_append]
      exact congrArg (· ++ [last]) hkeys
    · rw [← hvalues]
      refine List.map_congr_left fun name hname => ?_
      rw [Bindings.get?_set, if_neg]
      rintro rfl
      exact hlast hname
    · intro name hname
      cases hname
      exact ⟨_, by rw [Bindings.get?_set, if_pos rfl], Value.list?_ofList _ _⟩

/-! ## Both together -/

/-- **Parameter lists and calls.**  A form is a parameter list if it is a proper list of symbols
that the first dot splits, and stands for the names before it and the one after it.  Unless it ends
in two dots, this means that the dot is where it should stand, and that no name is the dot.  With
distinct names a call succeeds if the number of arguments is right, gives each name its arguments
and loses none. -/
theorem lists_exact (form : Value) :
    (∀ params, ofForm form = .ok params ↔ ∃ names, IsNames form names ∧ Splits names params) ∧
    ((∀ names, IsNames form names → ¬ EndsInTwoDots names) →
      ((∃ params, ofForm form = .ok params) ↔ ∃ names, IsNames form names ∧ DotPlaced names) ∧
      ∀ params, ofForm form = .ok params → dot ∉ params.names) ∧
    ∀ params, ofForm form = .ok params → params.names.Nodup → ∀ args,
      ((∃ bindings, params.bind args = .ok bindings) ↔
        if params.rest.isSome then params.required.length ≤ args.length
        else args.length = params.required.length) ∧
      ∀ bindings, params.bind args = .ok bindings → params.Binds args bindings := by
  refine ⟨fun params => ofForm_eq_ok, fun hdots => ⟨?_, fun params h hm => ?_⟩,
    fun params _ hd args => ⟨exists_bind_iff, fun bindings h => binds_of_bind hd h⟩⟩
  · constructor
    · rintro ⟨params, h⟩
      obtain ⟨names, hnames, hs⟩ := ofForm_eq_ok.mp h
      have haccepted := exists_splits_iff.mp ⟨params, hs⟩
      exact ⟨names, hnames, haccepted.resolve_right (hdots names hnames)⟩
    · rintro ⟨names, hnames, hplaced⟩
      obtain ⟨params, hs⟩ := exists_splits_iff.mpr (.inl hplaced)
      exact ⟨params, ofForm_eq_ok.mpr ⟨names, hnames, hs⟩⟩
  · obtain ⟨names, hnames, hs⟩ := ofForm_eq_ok.mp h
    exact hdots names hnames (hs.dot_mem_iff.mp hm)

/-- The parameters `(a . more)`, called with three arguments. -/
theorem lists_exact_rest :
    let form : Value := .ofList [.symbol "a", .symbol ".", .symbol "more"] none .nil
    let params : Parameters := ⟨["a"], some "more"⟩
    ofForm form = .ok params ∧ params.names.Nodup ∧ dot ∉ params.names ∧
      ∃ bindings, params.bind [.nil, .bool true, .bool false] = .ok bindings ∧
        params.Binds [.nil, .bool true, .bool false] bindings := by
  intro form params
  obtain ⟨-, hplaced, hcalls⟩ := lists_exact form
  have hparams : ofForm form = .ok params := rfl
  have hdistinct : params.names.Nodup := by decide
  have hdots : ∀ names, IsNames form names → ¬ EndsInTwoDots names := by
    rintro names hnames ⟨front, -, heq⟩
    obtain rfl : names = ["a", ".", "more"] := Option.some.inj (names?_eq_some.mpr hnames).symm
    have hsuffix : [dot, dot] <:+ ["a", ".", "more"] := heq ▸ List.suffix_append _ _
    revert hsuffix
    decide
  obtain ⟨hfits, hbinds⟩ := hcalls params hparams hdistinct [.nil, .bool true, .bool false]
  obtain ⟨bindings, h⟩ := hfits.mpr (by decide)
  exact ⟨hparams, hdistinct, (hplaced hdots).2 params hparams, bindings, h, hbinds bindings h⟩

/-- **A list that ends in two dots is accepted**, though a dot is its last name, and this dot names
the further arguments. -/
theorem not_dotPlaced_two_dots :
    let form : Value := .ofList [.symbol "a", .symbol ".", .symbol "."] none .nil
    ofForm form = .ok ⟨["a"], some dot⟩ ∧ ¬ ∃ names, IsNames form names ∧ DotPlaced names := by
  intro form
  refine ⟨rfl, ?_⟩
  rintro ⟨names, hnames, hplaced⟩
  obtain rfl : names = ["a", ".", "."] := Option.some.inj (names?_eq_some.mpr hnames).symm
  rcases hplaced with hnone | ⟨hcount, -⟩
  · exact hnone (by decide)
  · exact absurd hcount (by decide)

end Parameters

end StackLisp
