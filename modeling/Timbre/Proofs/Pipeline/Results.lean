import Timbre.Proofs.Pipeline.History
import Timbre.Proofs.Pipeline.Release

/-! # What a run returns

Storing collections under different names one after the other keeps all of them. The outputs that
have names are never released, so at the end of a run they are all there, and the features are these
outputs under the names given to their stages.
-/
namespace Timbre

namespace Features

variable {name : String} {b : AnyBuffers} {es xs : List (String × AnyBuffers)}

theorem perm_insertEntry (h : name ∉ es.map (·.1)) :
    (insertEntry name b es).Perm ((name, b) :: es) := by
  induction es with
  | nil => rfl
  | cons e es ih =>
    rw [List.map_cons, List.mem_cons, not_or] at h
    simp only [insertEntry]
    split
    · rfl
    · rename_i hlt
      split
      · exact ((ih h.2).cons e).trans (.swap (name, b) e es)
      · rename_i hgt
        exact absurd (String.le_antisymm (String.not_lt.1 hgt) (String.not_lt.1 hlt)) h.1

theorem perm_foldl_insertEntry (h : ((xs ++ es).map (·.1)).Nodup) :
    (xs.foldl (fun es x => insertEntry x.1 x.2 es) es).Perm (xs ++ es) := by
  induction xs generalizing es with
  | nil => rfl
  | cons x xs ih =>
    have hperm : (xs ++ (x :: es)).Perm (x :: (xs ++ es)) := List.perm_middle
    rw [List.cons_append, List.map_cons, List.nodup_cons, List.map_append, List.mem_append,
      not_or] at h
    have hinsert := perm_insertEntry (b := x.2) h.1.2
    have happend : (xs ++ insertEntry x.1 x.2 es).Perm (xs ++ (x :: es)) := hinsert.append_left xs
    have hnodup : ((xs ++ insertEntry x.1 x.2 es).map (·.1)).Nodup := by
      rw [((happend.trans hperm).map (·.1)).nodup_iff, List.map_cons, List.nodup_cons,
        List.map_append, List.mem_append, not_or]
      exact h
    exact (ih hnodup).trans (happend.trans hperm)

theorem lookup_eq_some_iff_mem (h : (es.map (·.1)).Nodup) :
    es.lookup name = some b ↔ (name, b) ∈ es := by
  induction es with
  | nil => simp
  | cons e es ih =>
    obtain ⟨n, c⟩ := e
    rw [List.map_cons, List.nodup_cons] at h
    by_cases hn : name = n
    · subst hn
      have hnot : (name, b) ∉ es := fun hmem => h.1 (List.mem_map.2 ⟨_, hmem, rfl⟩)
      simp [hnot, eq_comm]
    · have hbeq : (name == n) = false := by simpa using hn
      simp only [List.lookup_cons, hbeq, ih h.2, List.mem_cons, Prod.mk.injEq, hn, false_and,
        false_or]

end Features

namespace Pipeline

variable {p : Pipeline} {source : AnyBuffers} {outs : List AnyBuffers} {r : Run}

/-- The named outputs among the given ones, once for each name, in the order of the steps. -/
def namedOutputs (p : Pipeline) (outs : List AnyBuffers) : List (String × AnyBuffers) :=
  (p.steps.zip outs).flatMap fun x => x.1.features.map (·, x.2)

theorem foldl_insert (features : Features) (names : List String) (b : AnyBuffers) :
    (features.insert names b).entries = (names.map (·, b)).foldl
      (fun es x => Features.insertEntry x.1 x.2 es) features.entries := by
  rw [Features.insert, List.foldl_map]

theorem Reached.held_of_features (h : p.Scheduled) (hr : p.Reached source outs r) {k : Nat}
    {s : Step} {out : AnyBuffers} (hs : p.steps[k]? = some s) (hout : outs[k]? = some out)
    (hfeatures : s.features ≠ []) : r.held[k]? = some (some out) := by
  refine (hr.held k out).2 ⟨hout, fun j t _ ht hmem => ?_⟩
  obtain ⟨⟨s', hs', hempty⟩, -⟩ := (h.release j t ht k).1 hmem
  rw [hs] at hs'
  cases hs'
  exact hfeatures hempty

/-- What the collected features become at a step. -/
def Run.keep (r : Run) (features : Features) (x : Step × Nat) : Features :=
  if x.1.features.isEmpty then features
  else match r.held[x.2]? with
    | some (some b) => features.insert x.1.features b
    | _ => features

theorem Run.entries_keep {s : Step} {k : Nat} {b : AnyBuffers} (features : Features)
    (hheld : s.features ≠ [] → r.held[k]? = some (some b)) : (r.keep features (s, k)).entries =
      (s.features.map (·, b)).foldl (fun es x => Features.insertEntry x.1 x.2 es)
        features.entries := by
  unfold keep
  by_cases hempty : s.features = []
  · simp [hempty]
  · simp only [List.isEmpty_iff, hempty, if_false, hheld hempty, foldl_insert]

theorem Run.entries_foldl_keep (steps : List Step) (outs : List AnyBuffers) (k : Nat)
    (features : Features) (hlen : outs.length = steps.length)
    (hheld : ∀ (i : Nat) s b, steps[i]? = some s → outs[i]? = some b → s.features ≠ [] →
      r.held[k + i]? = some (some b)) : ((steps.zipIdx k).foldl r.keep features).entries =
      ((steps.zip outs).flatMap fun x => x.1.features.map (·, x.2)).foldl
        (fun es x => Features.insertEntry x.1 x.2 es) features.entries := by
  induction steps generalizing outs k features with
  | nil => rfl
  | cons s steps ih =>
    cases outs with
    | nil => cases hlen
    | cons b outs =>
      have hkeep := entries_keep (k := k) features (hheld 0 s b rfl rfl)
      have hrest := ih outs (k + 1) (r.keep features (s, k)) (Nat.succ_inj.1 hlen)
        fun i t c ht hc hne => by
          rw [Nat.add_right_comm]
          exact hheld (i + 1) t c ht hc hne
      rw [List.zipIdx_cons, List.foldl_cons, hrest, hkeep, List.zip_cons_cons, List.flatMap_cons,
        List.foldl_append]

theorem Reached.entries_collect (h : p.Scheduled) (hr : p.Reached source outs r)
    (hlen : outs.length = p.steps.length) : (p.collect r).entries =
      (p.namedOutputs outs).foldl (fun es x => Features.insertEntry x.1 x.2 es) [] := by
  have hcollect : p.collect r = p.steps.zipIdx.foldl r.keep .empty := rfl
  rw [hcollect]
  refine Run.entries_foldl_keep p.steps outs 0 .empty hlen fun i s b hs hb hne => ?_
  rw [Nat.zero_add]
  exact hr.held_of_features h hs hb hne

end Pipeline

namespace Builder

variable {b : Builder} {p : Pipeline} {order : List (Nat × Nat)} {source : AnyBuffers}
  {outs : List AnyBuffers} {r : Pipeline.Run} {names : List (String × StageId)}

theorem Schedules.mem_features (h : b.Schedules p order) (hn : b.Named names) {k : Nat} {s : Step}
    (hs : p.steps[k]? = some s) {name : String} : name ∈ s.features ↔
      ∃ x, order[k]? = some x ∧ (name, .stage x.1) ∈ names := by
  obtain ⟨x, e, hx, he, -, -, hfeatures, -⟩ := h.stage k s hs
  rw [hfeatures, hn.features_eq x.1 e he]
  constructor
  · intro hmem
    obtain ⟨⟨n, id⟩, hy, rfl⟩ := List.mem_map.1 hmem
    obtain ⟨hy, hid⟩ := List.mem_filter.1 hy
    cases of_decide_eq_true hid
    exact ⟨x, hx, hy⟩
  · rintro ⟨y, hy, hmem⟩
    rw [hx] at hy
    cases hy
    exact List.mem_map.2 ⟨_, List.mem_filter.2 ⟨hmem, decide_eq_true rfl⟩, rfl⟩

theorem Schedules.mem_namedOutputs (h : b.Schedules p order) (hn : b.Named names)
    {name : String} {out : AnyBuffers} :
    (name, out) ∈ p.namedOutputs outs ↔ ∃ (k : Nat) (x : Nat × Nat), order[k]? = some x ∧
      (name, .stage x.1) ∈ names ∧ outs[k]? = some out := by
  rw [Pipeline.namedOutputs, List.mem_flatMap]
  constructor
  · rintro ⟨⟨s, b'⟩, hmem, hname⟩
    obtain ⟨k, hk⟩ := List.mem_iff_getElem?.1 hmem
    obtain ⟨hs, hb'⟩ := List.getElem?_zip_eq_some.1 hk
    obtain ⟨n, hn', hnb⟩ := List.mem_map.1 hname
    cases hnb
    obtain ⟨x, hx, hmem⟩ := (h.mem_features hn hs).1 hn'
    exact ⟨k, x, hx, hmem, hb'⟩
  · rintro ⟨k, x, hx, hname, hout⟩
    obtain ⟨s, e, hs, -⟩ := h.step_of_order hx
    refine ⟨(s, out), List.mem_iff_getElem?.2 ⟨k, List.getElem?_zip_eq_some.2 ⟨hs, hout⟩⟩, ?_⟩
    exact List.mem_map.2 ⟨name, (h.mem_features hn hs).2 ⟨x, hx, hname⟩, rfl⟩

theorem Named.id_unique (hn : b.Named names) {name : String} {id id' : StageId}
    (h : (name, id) ∈ names) (h' : (name, id') ∈ names) : id = id' := by
  have := List.inj_on_of_nodup_map hn.nodup h h' rfl
  exact congrArg Prod.snd this

theorem Schedules.nodup_namedOutputs (h : b.Schedules p order) (hn : b.Named names)
    (outs : List AnyBuffers) :
    ((p.namedOutputs outs).map (·.1)).Nodup := by
  have hmap : (p.namedOutputs outs).map (·.1) =
      (p.steps.zip outs).flatMap fun x => x.1.features := by
    simp [Pipeline.namedOutputs, List.map_flatMap, Function.comp_def]
  rw [hmap, List.nodup_flatMap]
  constructor
  · rintro ⟨s, b'⟩ hmem
    obtain ⟨k, hk⟩ := List.mem_iff_getElem?.1 hmem
    obtain ⟨hs, -⟩ := List.getElem?_zip_eq_some.1 hk
    obtain ⟨x, e, -, he, -, -, hfeatures, -⟩ := h.stage k s hs
    dsimp only
    rw [hfeatures, hn.features_eq x.1 e he]
    exact hn.nodup.sublist (List.filter_sublist.map _)
  · rw [List.pairwise_iff_getElem]
    intro i j hi hj hij name hni hnj
    obtain ⟨hsi, -⟩ := List.getElem?_zip_eq_some.1 (List.getElem?_eq_getElem hi)
    obtain ⟨hsj, -⟩ := List.getElem?_zip_eq_some.1 (List.getElem?_eq_getElem hj)
    obtain ⟨x, hx, hnx⟩ := (h.mem_features hn hsi).1 hni
    obtain ⟨y, hy, hny⟩ := (h.mem_features hn hsj).1 hnj
    have hxy := StageId.stage.inj (hn.id_unique hnx hny)
    have hnodup : (order.map (·.1)).Nodup := h.perm.nodup_iff.2 List.nodup_range
    have hlt : i < (order.map (·.1)).length := by
      simpa using (List.getElem?_eq_some_iff.1 hx).1
    refine Nat.ne_of_lt hij ((List.getElem?_inj hlt hnodup).1 ?_)
    rw [List.getElem?_map, List.getElem?_map, hx, hy, Option.map_some, Option.map_some, hxy]

/-- The features are exactly the outputs of the stages that have names, under these names. -/
theorem Schedules.features_collect (h : b.Schedules p order) (hn : b.Named names)
    (hr : p.Reached source outs r) (hlen : outs.length = p.steps.length) :
    (p.collect r).names.Perm (names.map (·.1)) ∧
      ∀ name (k : Nat) x out, (name, .stage x.1) ∈ names → order[k]? = some x →
        outs[k]? = some out → (p.collect r).find? name = some out := by
  have hnodup := h.nodup_namedOutputs hn outs
  have hperm : (p.collect r).entries.Perm (p.namedOutputs outs) := by
    rw [hr.entries_collect h.scheduled hlen]
    rw [← List.append_nil (p.namedOutputs outs)] at hnodup
    have := Features.perm_foldl_insertEntry hnodup
    rwa [List.append_nil] at this
  have hnodup' : ((p.collect r).entries.map (·.1)).Nodup :=
    ((hperm.map (·.1)).nodup_iff).2 hnodup
  constructor
  · refine (List.perm_ext_iff_of_nodup hnodup' hn.nodup).2 fun name => ?_
    rw [(hperm.map (·.1)).mem_iff]
    constructor
    · intro hmem
      obtain ⟨⟨n, out⟩, hout, rfl⟩ := List.mem_map.1 hmem
      obtain ⟨k, x, -, hname, -⟩ := (h.mem_namedOutputs hn).1 hout
      exact List.mem_map.2 ⟨_, hname, rfl⟩
    · intro hmem
      obtain ⟨⟨n, id⟩, hname, rfl⟩ := List.mem_map.1 hmem
      obtain ⟨i, hi, hid⟩ := hn.known _ hname
      obtain ⟨k, x, hx, rfl⟩ := h.exists_position hi
      have hk : k < outs.length := by
        rw [hlen, h.length_eq]
        exact (List.getElem?_eq_some_iff.1 hx).1
      dsimp only at hid
      rw [hid] at hname
      exact List.mem_map.2 ⟨(n, outs[k]), (h.mem_namedOutputs hn).2
        ⟨k, x, hx, hname, List.getElem?_eq_getElem hk⟩, rfl⟩
  · intro name k x out hname hx hout
    rw [Features.find?, Features.lookup_eq_some_iff_mem hnodup', hperm.mem_iff]
    exact (h.mem_namedOutputs hn).2 ⟨k, x, hx, hname, hout⟩

end Builder

end Timbre
