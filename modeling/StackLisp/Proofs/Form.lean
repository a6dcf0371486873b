import StackLisp.Form
import StackLisp.Proofs.Code.Constants

/-!
# What is read

The reader makes data of words and texts, and no functions.  So **all forms of a source have a
property that all data have** (`Source.forall_of_parse`): they are plain, and what functions
there are in them is compiled.
-/

namespace StackLisp

namespace Value

/-- A property that pairs and quoted values share with their parts. -/
structure Composed (P : Value → Prop) : Prop where
  pair : ∀ {head tail loc}, P (.pair head tail loc) ↔ P head ∧ P tail
  quoted : ∀ {v}, P (.quoted v) ↔ P v

/-- A property that all data without functions have. -/
structure OfData (P : Value → Prop) : Prop extends Composed P where
  nil : P .nil
  bool : ∀ b, P (.bool b)
  number : ∀ x, P (.number x)
  text : ∀ s, P (.text s)
  symbol : ∀ name, P (.symbol name)

theorem Compiled.ofData : OfData Value.Compiled where
  pair := ⟨fun h => by cases h; constructor <;> assumption, fun h => .pair h.1 h.2⟩
  quoted := ⟨fun h => by cases h; assumption, .quoted⟩
  nil := .nil
  bool := .bool
  number := .number
  text := .text
  symbol := .symbol

theorem Plain.ofData : OfData Value.Plain where
  pair := ⟨fun h => by cases h; constructor <;> assumption, fun h => .pair h.1 h.2⟩
  quoted := ⟨fun h => by cases h; assumption, .quoted⟩
  nil := .nil
  bool := .bool
  number := .number
  text := .text
  symbol := .symbol

/-- Two properties together. -/
theorem OfData.and {P Q : Value → Prop} (hP : OfData P) (hQ : OfData Q) :
    OfData fun v => P v ∧ Q v where
  pair := by
    intro head tail loc
    rw [hP.pair, hQ.pair]
    constructor
    · rintro ⟨⟨h₁, h₂⟩, h₃, h₄⟩
      exact ⟨⟨h₁, h₃⟩, h₂, h₄⟩
    · rintro ⟨⟨h₁, h₃⟩, h₂, h₄⟩
      exact ⟨⟨h₁, h₂⟩, h₃, h₄⟩
  quoted := and_congr hP.quoted hQ.quoted
  nil := ⟨hP.nil, hQ.nil⟩
  bool b := ⟨hP.bool b, hQ.bool b⟩
  number x := ⟨hP.number x, hQ.number x⟩
  text s := ⟨hP.text s, hQ.text s⟩
  symbol name := ⟨hP.symbol name, hQ.symbol name⟩

theorem OfData.ofList {P : Value → Prop} (hP : OfData P) {items : List Value}
    {loc : Option Location} (hi : ∀ v ∈ items, P v) : P (.ofList items loc .nil) := by
  induction items with
  | nil => exact hP.nil
  | cons item items ih =>
    obtain ⟨hitem, hitems⟩ := List.forall_mem_cons.mp hi
    exact hP.pair.mpr ⟨hitem, ih hitems⟩

end Value

namespace Reader

/-- All items that are pending have a property. -/
def AllPending (P : Value → Prop) (pending : List Pending) : Prop :=
  ∀ offset items, Pending.list offset items ∈ pending → ∀ v ∈ items, P v

/-- All values that the reader has made so far have a property. -/
inductive AllProgress (P : Value → Prop) : Progress → Prop
  | more {pending : List Pending} (h : AllPending P pending) : AllProgress P (.more pending)
  | done {form : Value} (h : P form) : AllProgress P (.done form)
  | failed (error : ReadError) : AllProgress P (.failed error)

end Reader

section OfData
variable {P : Value → Prop} (hP : Value.OfData P)
include hP

theorem readWord_ofData (word : String) : P (readWord word) := by
  unfold readWord
  split
  · exact hP.number _
  · split
    · exact hP.bool _
    · split
      · exact hP.bool _
      · exact hP.symbol _

namespace Reader

theorem all_complete {pending : List Pending} {form : Value} (hp : AllPending P pending)
    (hf : P form) : AllProgress P (complete pending form) := by
  induction pending generalizing form with
  | nil => exact .done hf
  | cons first pending ih =>
    have hrest : AllPending P pending :=
      fun offset items hm => hp offset items (List.mem_cons_of_mem _ hm)
    cases first with
    | quote => exact ih hrest (hP.quoted.mpr hf)
    | list offset items =>
      refine .more fun other others hm => ?_
      rcases List.mem_cons.mp hm with heq | hm
      · cases heq
        exact List.forall_mem_cons.mpr ⟨hf, hp offset items List.mem_cons_self⟩
      · exact hrest other others hm

theorem all_feed (source : Source) {pending : List Pending} (hp : AllPending P pending)
    (t : Token) : AllProgress P (feed source pending t) := by
  unfold feed
  split
  · exact all_complete hP hp (readWord_ofData hP _)
  · exact all_complete hP hp (hP.text _)
  · refine .more fun offset items hm => ?_
    rcases List.mem_cons.mp hm with heq | hm
    · cases heq
    · exact hp offset items hm
  · refine .more fun offset items hm => ?_
    rcases List.mem_cons.mp hm with heq | hm
    · cases heq
      exact fun v hv => absurd hv List.not_mem_nil
    · exact hp offset items hm
  · split
    · exact .failed _
    · exact .failed _
    · rename_i offset items outer
      refine all_complete hP (fun o i hm => hp o i (List.mem_cons_of_mem _ hm)) (hP.ofList ?_)
      intro v hv
      exact hp offset items List.mem_cons_self v (List.mem_reverse.mp hv)

theorem all_readAll {source : Source} {unterminated : Option Nat} {pending : List Pending}
    {forms read : List Value} {tokens : List Token} (hp : AllPending P pending)
    (hf : ∀ f ∈ forms, P f)
    (h : readAll source unterminated pending forms tokens = .ok read) : ∀ f ∈ read, P f := by
  induction tokens generalizing pending forms with
  | nil =>
    unfold readAll at h
    split at h <;> cases h
    exact fun f hm => hf f (List.mem_reverse.mp hm)
  | cons t tokens ih =>
    have hfeed := all_feed hP source hp t
    unfold readAll at h
    split at h
    · rename_i next hnext
      rw [hnext] at hfeed
      cases hfeed with
      | more hnext => exact ih hnext hf h
    · rename_i form hform
      rw [hform] at hfeed
      cases hfeed with
      | done hform =>
        exact ih (fun _ _ hm => absurd hm List.not_mem_nil)
          (List.forall_mem_cons.mpr ⟨hform, hf⟩) h
    · cases h

end Reader

/-- **All forms of a source have a property that all data have.** -/
theorem Source.forall_of_parse {source : Source} {forms : List Value}
    (h : source.parse = .ok forms) : ∀ f ∈ forms, P f :=
  Reader.all_readAll hP (fun _ _ hm => absurd hm List.not_mem_nil)
    (fun _ hm => absurd hm List.not_mem_nil) h

end OfData

end StackLisp
