import Mathlib.Logic.Relation
import RecordService.Proofs.Value.Equality
/-!
# Equality by content

Values that repeat no name are equal exactly if they are the same once the members of all their maps
stand in the order of their names and no zero has a sign. So equality is an equivalence, and the
order of members, at any depth, does not matter to it.
-/

namespace RecordService

/-! ## Entries in the order of their names -/

namespace Entries

variable {α β : Type}

theorem perm_sorted (es : Entries α) : (sorted es).Perm es :=
  List.mergeSort_perm es _

theorem pairwise_sorted (es : Entries α) : (sorted es).Pairwise fun d e => d.1 ≤ e.1 := by
  have hpairwise := @List.pairwise_mergeSort _ (fun d e : String × α => decide (d.1 ≤ e.1))
    (fun _ _ _ h h' =>
      decide_eq_true (String.le_trans (of_decide_eq_true h) (of_decide_eq_true h')))
    (fun d e => by simpa using String.le_total d.1 e.1) es
  exact hpairwise.imp of_decide_eq_true

theorem sorted_mapValues (f : String → α → β) (es : Entries α) :
    sorted (mapValues f es) = mapValues f (sorted es) :=
  .symm (List.map_mergeSort fun _ _ _ _ => by rfl)

/-- Sorting forgets the order of entries and nothing else, if their names are distinct. -/
theorem sorted_eq_iff_perm {es fs : Entries α} (hn : (names es).Nodup) :
    sorted es = sorted fs ↔ es.Perm fs := by
  constructor
  · exact fun h => (perm_sorted es).symm.trans (h ▸ perm_sorted fs)
  · intro h
    have hperm : (sorted es).Perm (sorted fs) :=
      (perm_sorted es).trans (h.trans (perm_sorted fs).symm)
    refine hperm.eq_of_pairwise (fun d e hd he hle hge => ?_) (pairwise_sorted es)
      (pairwise_sorted fs)
    -- Entries of one name are one entry.
    have hname : d.1 = e.1 := String.le_antisymm hle hge
    have hd := find?_of_mem hn ((perm_sorted es).subset hd)
    have he := find?_of_mem hn (h.symm.subset ((perm_sorted fs).subset he))
    rw [hname, he] at hd
    exact Prod.ext hname (Option.some.inj hd).symm

end Entries

open Entries

/-! ## Zeros without a sign -/

namespace Decimal.Binary64

/-- The double, with no sign if it is zero. -/
def unsigned (x : Binary64) : Binary64 :=
  { x with negative := x.negative && x.units != 0 }

theorem beq_iff_unsigned {x y : Binary64} : x.beq y = true ↔ x.unsigned = y.unsigned := by
  simp only [beq, unsigned, Binary64.mk.injEq, Bool.and_eq_true, Bool.or_eq_true, beq_iff_eq]
  grind

end Decimal.Binary64

namespace Number

/-- The number, with no sign if it is a zero. -/
def unsigned : Number → Number
  | .integer i => .integer i
  | .real x => .real x.unsigned

theorem beq_iff_unsigned {m n : Number} : (m == n) = true ↔ m.unsigned = n.unsigned := by
  cases m with
  | integer i =>
    cases n with
    | integer j => exact (decide_eq_true_iff).trans (by simp [unsigned])
    | real y => exact iff_of_false Bool.false_ne_true nofun
  | real x =>
    cases n with
    | integer j => exact iff_of_false Bool.false_ne_true nofun
    | real y => exact Decimal.Binary64.beq_iff_unsigned.trans (by simp [unsigned])

/-- Numbers of different kinds are not equal. -/
theorem integer_beq_real (i : WordInt) (x : Decimal.Binary64) :
    (integer i == real x) = false ∧ (real x == integer i) = false :=
  ⟨rfl, rfl⟩

end Number

namespace Value

mutual

/-- The value with no sign at any zero inside. -/
def unsigned : Value → Value
  | .number n => .number n.unsigned
  | .list xs => .list (unsignedItems xs)
  | .map ms => .map (unsignedMembers ms)
  | v => v

def unsignedItems : List Value → List Value
  | [] => []
  | x :: xs => unsigned x :: unsignedItems xs

def unsignedMembers : List (String × Value) → List (String × Value)
  | [] => []
  | (n, x) :: ms => (n, unsigned x) :: unsignedMembers ms

end

theorem unsigned_list (xs : List Value) : unsigned (.list xs) = .list (xs.map unsigned) := by
  have hitems : unsignedItems xs = xs.map unsigned := by
    induction xs with
    | nil => rfl
    | cons x xs ih => rw [unsignedItems, ih, List.map_cons]
  rw [unsigned, hitems]

theorem unsigned_map (ms : Entries Value) :
    unsigned (.map ms) = .map (mapValues (fun _ => unsigned) ms) := by
  have hmembers : unsignedMembers ms = mapValues (fun _ => unsigned) ms := by
    induction ms with
    | nil => rfl
    | cons e ms ih => rw [unsignedMembers, ih, mapValues, mapValues, List.map_cons]
  rw [unsigned, hmembers]

/-! ## Content -/

/-- What equality looks at: the members of all maps in the order of their names, and zeros without
a sign. -/
def content (v : Value) : Value :=
  v.sorted.unsigned

theorem content_list (xs : List Value) : content (.list xs) = .list (xs.map content) := by
  rw [content, sorted, sortedItems_eq, unsigned_list, List.map_map]
  rfl

theorem content_map (ms : Entries Value) :
    content (.map ms) = .map (Entries.sorted (mapValues (fun _ => content) ms)) := by
  have hvalues : mapValues (fun _ => unsigned) (sortedMembers ms)
      = mapValues (fun _ => content) ms := by
    rw [sortedMembers_eq, mapValues, List.map_map]
    rfl
  rw [content, sorted, unsigned_map, ← Entries.sorted_mapValues, hvalues]

/-- Values without repeated names are equal exactly if their content is the same. -/
theorem beq_iff_content {v w : Value} (hv : v.Distinct) (hw : w.Distinct) :
    (v == w) = true ↔ v.content = w.content := by
  induction v using nested_induction generalizing w with
  | null =>
    cases w with
    | null => exact iff_of_true rfl rfl
    | _ => exact iff_of_false Bool.false_ne_true nofun
  | bool a =>
    cases w with
    | bool b => exact bool_beq.trans (by simp [content, sorted, unsigned])
    | _ => exact iff_of_false Bool.false_ne_true nofun
  | number m =>
    cases w with
    | number n => exact Number.beq_iff_unsigned.trans (by simp [content, sorted, unsigned])
    | _ => exact iff_of_false Bool.false_ne_true nofun
  | string s =>
    cases w with
    | string t => exact string_beq.trans (by simp [content, sorted, unsigned])
    | _ => exact iff_of_false Bool.false_ne_true nofun
  | list xs ih =>
    cases w with
    | list ys =>
      replace hv := eachMap_list.1 hv
      replace hw := eachMap_list.1 hw
      rw [list_beq_iff, content_list, content_list, list.injEq, ← List.forall₂_eq_eq_eq,
        List.forall₂_map_left_iff, List.forall₂_map_right_iff]
      induction xs generalizing ys with
      | nil => simp
      | cons x xs ihxs =>
        cases ys with
        | nil => simp
        | cons y ys =>
          obtain ⟨ih, ihs⟩ := List.forall_mem_cons.1 ih
          obtain ⟨hx, hxs⟩ := List.forall_mem_cons.1 hv
          obtain ⟨hy, hys⟩ := List.forall_mem_cons.1 hw
          rw [List.forall₂_cons, List.forall₂_cons]
          exact and_congr (ih hx hy) (ihxs ihs ys hxs hys)
    | _ => exact iff_of_false Bool.false_ne_true nofun
  | map ms ih =>
    cases w with
    | map ns =>
      obtain ⟨hn, hv⟩ := eachMap_map.1 hv
      obtain ⟨hn', hw⟩ := eachMap_map.1 hw
      rw [map_beq_iff_find? hn hn', content_map, content_map, map.injEq,
        sorted_eq_iff_perm (by rwa [names_mapValues]),
        perm_iff_find? (by rwa [names_mapValues]) (by rwa [names_mapValues])]
      refine forall_congr' fun name => ?_
      rw [find?_mapValues, find?_mapValues]
      cases hx : find? name ms with
      | none => cases find? name ns <;> simp
      | some x =>
        cases hy : find? name ns with
        | none => simp
        | some y =>
          have hbeq :=
            ih (name, x) (mem_of_find? hx) (hv _ (mem_of_find? hx)) (hw _ (mem_of_find? hy))
          simpa using hbeq
    | _ => exact iff_of_false Bool.false_ne_true nofun

/-! ## Members in another order -/

/-- The members of one map, at any depth, are put in another order. -/
inductive Reorders : Value → Value → Prop where
  | here {ms ns : Entries Value} (h : ms.Perm ns) : Reorders (.map ms) (.map ns)
  | item {x y : Value} (before after : List Value) (h : Reorders x y) :
      Reorders (.list (before ++ x :: after)) (.list (before ++ y :: after))
  | member {x y : Value} (before after : Entries Value) (name : String) (h : Reorders x y) :
      Reorders (.map (before ++ (name, x) :: after)) (.map (before ++ (name, y) :: after))

/-- The order of members is no content, and no name is repeated in another order. -/
theorem Reorders.content_eq {v w : Value} (h : Reorders v w) (hv : v.Distinct) :
    w.Distinct ∧ v.content = w.content := by
  induction h with
  | @here ms ns h =>
    obtain ⟨hn, hvalues⟩ := eachMap_map.1 hv
    have hdistinct : Distinct (.map ns) :=
      eachMap_map.2 ⟨(h.map Prod.fst).nodup_iff.1 hn, fun e he => hvalues e (h.mem_iff.2 he)⟩
    have hperm : (mapValues (fun _ => content) ms).Perm (mapValues (fun _ => content) ns) := h.map _
    refine ⟨hdistinct, ?_⟩
    rw [content_map, content_map, (sorted_eq_iff_perm (by rwa [names_mapValues])).2 hperm]
  | item before after _ ih =>
    have hitems := eachMap_list.1 hv
    rw [List.forall_mem_append, List.forall_mem_cons] at hitems
    obtain ⟨hbefore, hx, hafter⟩ := hitems
    obtain ⟨hy, heq⟩ := ih hx
    refine ⟨eachMap_list.2 ?_, ?_⟩
    · exact List.forall_mem_append.2 ⟨hbefore, List.forall_mem_cons.2 ⟨hy, hafter⟩⟩
    · simp only [content_list, List.map_append, List.map_cons, heq]
  | member before after name _ ih =>
    obtain ⟨hn, hvalues⟩ := eachMap_map.1 hv
    rw [List.forall_mem_append, List.forall_mem_cons] at hvalues
    obtain ⟨hbefore, hx, hafter⟩ := hvalues
    obtain ⟨hy, heq⟩ := ih hx
    refine ⟨eachMap_map.2 ⟨by simpa [names] using hn, ?_⟩, ?_⟩
    · exact List.forall_mem_append.2 ⟨hbefore, List.forall_mem_cons.2 ⟨hy, hafter⟩⟩
    · simp only [content_map, mapValues, List.map_append, List.map_cons, heq]

/-- However often members are put in another order. -/
theorem content_eq_of_reordered {v w : Value} (h : Relation.ReflTransGen Reorders v w)
    (hv : v.Distinct) : w.Distinct ∧ v.content = w.content := by
  induction h with
  | refl => exact ⟨hv, rfl⟩
  | tail _ hstep ih =>
    obtain ⟨hdistinct, heq⟩ := ih
    obtain ⟨hw, heq'⟩ := hstep.content_eq hdistinct
    exact ⟨hw, heq.trans heq'⟩

/-! ## Main statement -/

/-- For values in which no map repeats a name, at any depth, equality is reflexive, symmetric and
transitive. A value equals itself with the members of any of its maps in another order, and values
are equal exactly if they are the same once all members stand in the order of their names and no
zero has a sign. So equal lists are equal item by item, in order; an integer and a double are never
equal; and maps are equal only if each name has equal members in both, or none. -/
theorem equality_by_content {u v w : Value} (hu : u.Distinct) (hv : v.Distinct) (hw : w.Distinct) :
    (u == u) = true ∧
    ((u == v) = true → (v == u) = true) ∧
    ((u == v) = true → (v == w) = true → (u == w) = true) ∧
    (∀ u', Relation.ReflTransGen Reorders u u' → (u == u') = true ∧ (u' == u) = true) ∧
    ((u == v) = true ↔ u.sorted.unsigned = v.sorted.unsigned) ∧
    (∀ xs ys, u = .list xs → v = .list ys →
      ((u == v) = true ↔ List.Forall₂ (fun x y => (x == y) = true) xs ys)) ∧
    (∀ i x, (Value.number (.integer i) == .number (.real x)) = false ∧
      (Value.number (.real x) == .number (.integer i)) = false) ∧
    ∀ ms ns, u = .map ms → v = .map ns → ((u == v) = true ↔
      ∀ name, Option.Rel (fun x y => (x == y) = true) (find? name ms) (find? name ns)) := by
  have huv := beq_iff_content hu hv
  have hvw := beq_iff_content hv hw
  have huw := beq_iff_content hu hw
  refine ⟨beq_refl hu, fun h => ?_, fun h h' => ?_, fun u' h => ?_, huv, ?_,
    Number.integer_beq_real, ?_⟩
  · exact (beq_iff_content hv hu).2 (huv.1 h).symm
  · exact huw.2 ((huv.1 h).trans (hvw.1 h'))
  · obtain ⟨hu', heq⟩ := content_eq_of_reordered h hu
    exact ⟨(beq_iff_content hu hu').2 heq, (beq_iff_content hu' hu).2 heq.symm⟩
  · rintro xs ys rfl rfl
    exact list_beq_iff
  · rintro ms ns rfl rfl
    exact map_beq_iff_find? (eachMap_map.1 hu).1 (eachMap_map.1 hv).1

/-- Maps inside a list, with their members in another order and a zero of the other sign. -/
theorem equality_by_content_nested :
    let zero (negative : Bool) : Value := .number (.real (.zero negative))
    let u : Value := .list [.map [("b", zero true), ("a", .map [("y", .null), ("x", .bool true)])]]
    let u' : Value := .list [.map [("a", .map [("x", .bool true), ("y", .null)]), ("b", zero true)]]
    let v : Value := .list [.map [("a", .map [("y", .null), ("x", .bool true)]), ("b", zero false)]]
    let w : Value := .list [.map [("b", zero false), ("a", .map [("x", .bool true), ("y", .null)])]]
    u.Distinct ∧ v.Distinct ∧ w.Distinct ∧ Relation.ReflTransGen Reorders u u' ∧
      (u == u') = true ∧ u.sorted.unsigned = v.sorted.unsigned ∧ (u == v) = true ∧
      (v == u) = true ∧ (v == w) = true ∧ (u == w) = true := by
  intro zero u u' v w
  have hu : u.Distinct := by simp [Distinct, u, zero, names]
  have hv : v.Distinct := by simp [Distinct, v, zero, names]
  have hw : w.Distinct := by simp [Distinct, w, zero, names]
  have houter : Reorders u (.list [.map [("a", .map [("y", .null), ("x", .bool true)]),
      ("b", zero true)]]) := .item [] [] (.here (.swap _ _ _))
  have hinner : Reorders (.list [.map [("a", .map [("y", .null), ("x", .bool true)]),
      ("b", zero true)]]) u' := .item [] [] (.member [] _ "a" (.here (.swap _ _ _)))
  have hreordered := (Relation.ReflTransGen.single houter).tail hinner
  have huv : (u == v) = true := by decide
  have hvw : (v == w) = true := by decide
  obtain ⟨-, hsymm, htrans, hreorder, hsorted, -⟩ := equality_by_content hu hv hw
  exact ⟨hu, hv, hw, hreordered, (hreorder u' hreordered).1, hsorted.1 huv, huv, hsymm huv, hvw,
    htrans huv hvw⟩

end Value

end RecordService
