import Mathlib.Data.List.Dedup
import Std.Data.HashMap.Lemmas
import Std.Data.TreeMap.Lemmas
import MessageSelector.Proofs.Regrouping

/-!
# Last writes

Properties are what was last written to every name, where an unknown value counts as nothing
(`lastWrite`, `Written.get?_eq`). A map that keeps unknown values differs from them as a look-up,
but not as a source of values: a selector asks for nothing but the value of a name, and a missing
property has the unknown value (`last_writes`).
-/

namespace MessageSelector

namespace Properties

/-! ## Histories of writes -/

/-- The properties are the result of writes, the first one first. -/
inductive Written : List (String × Value) → Properties → Prop
  | empty : Written [] empty
  | ofList (settings : List (String × Value)) : Written settings (ofList settings)
  | insert {writes : List (String × Value)} {props : Properties} (name : String) (value : Value) :
    Written writes props → Written (writes ++ [(name, value)]) (props.insert name value)
  | insertOption {writes : List (String × Value)} {props : Properties} (name : String)
    (value : Option Value) : Written writes props →
      Written (writes ++ [(name, value.getD .unknown)]) (props.insertOption name value)

/-- The value that was last written to a name, if there was one. -/
def lastWrite (writes : List (String × Value)) (name : String) : Option Value :=
  writes.reverse.lookup name

/-- The names whose last write is no unknown value. -/
def knownNames (writes : List (String × Value)) : List String :=
  (writes.map Prod.fst).dedup.filter fun name => (lastWrite writes name).any (!·.isUnknown)

theorem lastWrite_append (writes : List (String × Value)) (name : String) (value : Value)
    (other : String) : lastWrite (writes ++ [(name, value)]) other =
      if name = other then some value else lastWrite writes other := by
  rw [lastWrite, List.reverse_append, List.reverse_singleton, List.singleton_append,
    List.lookup_cons]
  by_cases h : name = other
  · simp [h]
  · have hne : (other == name) = false := by simpa using Ne.symm h
    rw [hne, if_neg h, lastWrite]

theorem mem_of_lastWrite {writes : List (String × Value)} {name : String} {value : Value}
    (h : lastWrite writes name = some value) : name ∈ writes.map Prod.fst := by
  obtain ⟨before, after, hwrites, -⟩ := List.lookup_eq_some_iff.1 h
  exact List.mem_map.2 ⟨(name, value), List.mem_reverse.1 (by simp [hwrites]), rfl⟩

/-- Writes one after another into a map, whose look-up keeps of a value what `seen` leaves. -/
theorem get_foldl {M : Type} {insert : M → String → Value → M} {get : M → String → Option Value}
    {seen : Value → Option Value} {start : M} (name : String) (hstart : get start name = none)
    (hinsert : ∀ m other value,
      get (insert m other value) name = if other = name then seen value else get m name)
    (writes : List (String × Value)) :
    get (writes.foldl (fun m write => insert m write.1 write.2) start) name =
      (lastWrite writes name).bind seen := by
  induction writes using List.reverseRecOn with
  | nil => exact hstart
  | append_singleton writes write ih =>
    rw [List.foldl_append, List.foldl_cons, List.foldl_nil, hinsert, lastWrite_append, ih]
    split <;> rfl

/-! ## Properties -/

/-- **One write.** It changes what is found for its name and for no other one. -/
theorem get?_insert (props : Properties) (name : String) (value : Value) (other : String) :
    (props.insert name value).get? other =
      if name = other then (some value).filter (!·.isUnknown) else props.get? other := by
  cases value with
  | unknown =>
    rw [insert, get?, get?, Std.TreeMap.getElem?_erase]
    simp only [Std.LawfulEqCmp.compare_eq_iff_eq]
    rfl
  | bool | string | number | list =>
    rw [insert, get?, get?, Std.TreeMap.getElem?_insert]
    · simp only [Std.LawfulEqCmp.compare_eq_iff_eq]
      rfl
    · nofun

theorem get?_empty (name : String) : empty.get? name = none := by
  rw [get?, empty, Std.TreeMap.getElem?_emptyc]

/-- **Many writes.** What is found for a name is what was last written to it, unless that is
unknown. -/
theorem Written.get?_eq {writes : List (String × Value)} {props : Properties}
    (h : Written writes props) (name : String) :
    props.get? name = (lastWrite writes name).filter (!·.isUnknown) := by
  have hstep {writes : List (String × Value)} {props : Properties} (other : String) (value : Value)
      (ih : props.get? name = (lastWrite writes name).filter (!·.isUnknown)) :
      (props.insert other value).get? name =
        (lastWrite (writes ++ [(other, value)]) name).filter (!·.isUnknown) := by
    rw [get?_insert, lastWrite_append, ih]
    split <;> rfl
  induction h with
  | empty => exact get?_empty name
  | ofList settings =>
    rw [Properties.ofList, get_foldl name (get?_empty name) fun m other value =>
      m.get?_insert other value name]
    cases lastWrite settings name <;> rfl
  | insert other value _ ih => exact hstep other value ih
  | insertOption other value _ ih => exact hstep other _ ih

/-- No property is stored with an unknown value. -/
theorem Written.ne_unknown {writes : List (String × Value)} {props : Properties}
    (h : Written writes props) {name : String} {value : Value} (hm : (name, value) ∈ props.toList) :
    value ≠ .unknown := by
  rintro rfl
  have hget : props.get? name = some .unknown := Std.TreeMap.mem_toList_iff_getElem?_eq_some.1 hm
  rw [h.get?_eq, Option.filter_eq_some_iff] at hget
  exact Bool.noConfusion hget.2

/-- The size is the number of the names that are known. -/
theorem Written.size_eq {writes : List (String × Value)} {props : Properties}
    (h : Written writes props) : props.size = (knownNames writes).length := by
  rw [size, ← Std.TreeMap.length_keys]
  refine List.Perm.length_eq ((List.perm_ext_iff_of_nodup Std.TreeMap.nodup_keys
    ((List.nodup_dedup _).filter _)).2 fun name => ?_)
  rw [Std.TreeMap.mem_keys, Std.TreeMap.mem_iff_isSome_getElem?]
  have hget : props.values[name]? = (lastWrite writes name).filter (!·.isUnknown) := h.get?_eq name
  rw [hget, List.mem_filter, List.mem_dedup]
  cases hlast : lastWrite writes name with
  | none => simp
  | some value => simp [mem_of_lastWrite hlast]

/-! ## Maps that keep unknown values -/

/-- A hash map of the last writes, unknown values too. -/
def hashed (writes : List (String × Value)) : Std.HashMap String Value :=
  writes.foldl (fun values write => values.insert write.1 write.2) ∅

/-- An ordered map of the last writes, unknown values too. -/
def ordered (writes : List (String × Value)) : Std.TreeMap String Value :=
  writes.foldl (fun values write => values.insert write.1 write.2) ∅

theorem hashed_getElem? (writes : List (String × Value)) (name : String) :
    (hashed writes)[name]? = lastWrite writes name := by
  have hinsert (m : Std.HashMap String Value) (other : String) (value : Value) :
      (m.insert other value)[name]? = if other = name then some value else m[name]? := by
    simp only [Std.HashMap.getElem?_insert, beq_iff_eq]
  rw [hashed, get_foldl name Std.HashMap.getElem?_empty hinsert, Option.bind_fun_some]

theorem ordered_getElem? (writes : List (String × Value)) (name : String) :
    (ordered writes)[name]? = lastWrite writes name := by
  have hinsert (m : Std.TreeMap String Value) (other : String) (value : Value) :
      (m.insert other value)[name]? = if other = name then some value else m[name]? := by
    simp only [Std.TreeMap.getElem?_insert, Std.LawfulEqCmp.compare_eq_iff_eq]
  rw [ordered, get_foldl name Std.TreeMap.getElem?_emptyc hinsert, Option.bind_fun_some]

/-- A look-up that keeps unknown values is the same source of values. -/
theorem Written.source_value {writes : List (String × Value)} {props : Properties}
    (h : Written writes props) {plain : PropertySource} (name : String)
    (hplain : plain name = lastWrite writes name) :
    props.source.value name = plain.value name := by
  rw [PropertySource.value, PropertySource.value, source, h.get?_eq, hplain]
  match lastWrite writes name with
  | none | some .unknown => rfl
  | some (.bool _) | some (.string _) | some (.number _) | some (.list _) => rfl

end Properties

namespace Evaluator

/-- Evaluation asks a source for nothing but the value of a name. -/
theorem value_congr (evaluator : Evaluator) (types : TypeTable) {source source' : PropertySource}
    (h : ∀ name, source.value name = source'.value name) (n : Node) :
    evaluator.value types source n = evaluator.value types source' n := by
  induction n with
  | leaf id token =>
    have hleaf : leafValue source token = leafValue source' token := by
      rw [leafValue, leafValue, h]
    rw [value, value, hleaf]
  | binary id op left right ihl ihr => simp only [value, ihl, ihr]
  | ternary id op first second third ih₁ ih₂ ih₃ => simp only [value, ih₁, ih₂, ih₃]
  | prefixOp id op operand ih | postfixOp id op operand ih => simp only [value, ih]
  | pattern | escaped | list => simp only [value]

end Evaluator

namespace Properties

/-- **Properties are the last writes without the unknown ones.** No unknown value is stored, a name
has the value that was last written to it unless that is unknown, and the size is the number of the
names with a known value. A selector and its program have the same value on the properties as on a
map of either kind that keeps the unknown values. -/
theorem last_writes (writes : List (String × Value)) (props : Properties)
    (h : Written writes props) :
    (∀ m ∈ props.toList, m.2 ≠ .unknown) ∧
      (∀ name, props.get? name = (lastWrite writes name).filter (!·.isUnknown)) ∧
      props.size = (knownNames writes).length ∧
      ∀ text hints s, Selector.withHints text hints = .ok s →
        ∃ program t, s.compile = .ok program ∧ Term.read program = .ok t ∧
          ∀ plain : PropertySource,
            plain = (fun name => (hashed writes)[name]?) ∨
                plain = (fun name => (ordered writes)[name]?) →
              ∃ v, s.value props.source = .ok v ∧ s.value plain = .ok v ∧
                t.value props.source = .ok v ∧ t.value plain = .ok v := by
  refine ⟨fun m hm => h.ne_unknown hm, h.get?_eq, h.size_eq, fun text hints s hs => ?_⟩
  have hmade := Selector.made_of_withHints hs
  obtain ⟨program, hprogram, hread⟩ := hmade.reads_term
  refine ⟨program, _, hprogram, hread, fun plain hplain => ?_⟩
  have hlast (name : String) : plain name = lastWrite writes name := by
    rcases hplain with rfl | rfl
    · exact hashed_getElem? writes name
    · exact ordered_getElem? writes name
  have hvalue : s.value props.source = s.value plain :=
    s.evaluator.value_congr s.types (fun name => h.source_value name (hlast name)) s.tree
  obtain ⟨v, hv, hterm⟩ := hmade.value_agrees props.source
  obtain ⟨w, hw, hterm'⟩ := hmade.value_agrees plain
  cases (hvalue ▸ hv).symm.trans hw
  exact ⟨v, hv, hw, hterm, hterm'⟩

/-- A name that is set and then unset again, beside one that stays, seen by a null test. -/
theorem last_writes_unset :
    ∃ props s, Written [("x", .bool true), ("y", .string "b"), ("x", .unknown)] props ∧
      Selector.withHints "x IS NULL" Hints.empty = .ok s ∧
      props.get? "x" = none ∧ props.get? "y" = some (.string "b") ∧ props.size = 1 ∧
      ∀ plain : PropertySource,
        plain = (fun name =>
            (hashed [("x", .bool true), ("y", .string "b"), ("x", .unknown)])[name]?) →
          ∃ v, s.value props.source = .ok v ∧ s.value plain = .ok v := by
  let x : Token := ⟨.ident, "x", 0⟩
  let test : Token := ⟨.isNull, "IS NULL", 2⟩
  let tree : Node := .postfixOp 0 test (.leaf 1 x)
  have hspells : Spells [.rule .simple] [x, test] [.postfixOp 0 test (.leaf 0 x)] :=
    .postfixOp rfl rfl
  have htokens : tokenize "x IS NULL" = .ok [x, test] := by decide +kernel
  have hparse : parse "x IS NULL" = .ok tree := by
    rw [parse, htokens]
    exact Parser.parse_of_spells (by decide) hspells.expr
  obtain ⟨s, hs, -⟩ :=
    @Selector.withHints_of_hasType _ Hints.empty _ .bool hparse ⟨rfl, by decide⟩ (.inl rfl)
  have hwritten : Written [("x", .bool true), ("y", .string "b"), ("x", .unknown)] _ :=
    .insertOption "x" none (.insert "y" (.string "b") (.ofList [("x", .bool true)]))
  obtain ⟨-, hget, hsize, hselectors⟩ := last_writes _ _ hwritten
  obtain ⟨program, t, -, -, hvalues⟩ := hselectors "x IS NULL" Hints.empty s hs
  refine ⟨_, s, hwritten, hs, hget "x", hget "y", hsize, fun plain hplain => ?_⟩
  obtain ⟨v, hv, hw, -, -⟩ := hvalues plain (.inl hplain)
  exact ⟨v, hv, hw⟩

end Properties

end MessageSelector
