import Mathlib.Data.List.Basic
import Timbre.Pipeline.Builder

/-! # How a builder grows

A builder grows in two ways: a stage that accepts the output of its parent is attached below it, or
a stage gets a name that is not in use. The stages stay where they are, the children of a place are
the stages whose parent it is, and every stage is what its link makes of the output of its parent.
-/
namespace Timbre

namespace Builder

variable {b b' : Builder} {e : Entry} {id : StageId} {i : Nat}

/-- The links from the source to a place. -/
inductive Path (b : Builder) : StageId → List Link → Prop
  | source : Path b .source []
  | stage {i : Nat} {e : Entry} {links : List Link} :
    b.stages[i]? = some e → Path b e.parent links → Path b (.stage i) (links ++ [e.link])

def parentOf? (b : Builder) (i : Nat) : Option StageId := b.stages[i]?.map (·.parent)

def childrenOf (b : Builder) : StageId → List Nat
  | .source => b.sourceChildren
  | .stage i => (b.stages[i]?.map (·.children)).getD []

/-- The stage is what its link makes of the output of its parent. -/
def Accepts (b : Builder) (e : Entry) : Prop :=
  ∃ fresh format count n warnings, b.registry.create e.link.name e.link.params = .ok fresh ∧
    b.outputOf e.parent = .ok (format, count) ∧
      fresh.accept format count = ⟨e.transform, .ok n, warnings⟩

structure WellFormed (b : Builder) : Prop where
  parent_le : ∀ (i : Nat) e, b.stages[i]? = some e → e.parent.number ≤ i
  children_eq : ∀ id, b.childrenOf id = (List.range b.size).filter fun c => b.parentOf? c = some id
  accepts : ∀ (i : Nat) e, b.stages[i]? = some e → b.Accepts e

/-- The names in use are those of a list, each at its stage, in the order of the list. -/
structure Named (b : Builder) (names : List (String × StageId)) : Prop where
  features_eq : ∀ (i : Nat) e, b.stages[i]? = some e →
    e.features = (names.filter fun x => x.2 = .stage i).map (·.1)
  known : ∀ x ∈ names, ∃ i < b.size, x.2 = .stage i
  nodup : (names.map (·.1)).Nodup

def attach (b : Builder) (e : Entry) : Builder :=
  ({ b with stages := b.stages.push e }).linkChild e.parent b.size

def giveName (b : Builder) (i : Nat) (n : String) : Builder :=
  b.modify i fun e => { e with features := e.features ++ [n] }

/-- The builders that come from one by attaching stages and giving names, with the names given. -/
inductive Extends (b : Builder) : Builder → List (String × StageId) → Prop
  | refl : Extends b b []
  | attach {c : Builder} {names : List (String × StageId)} {parent : StageId} {link : Link}
    {e : Entry} : Extends b c names → (c.makeEntry parent link).1 = .ok e →
      Extends b (c.attach e) names
  | giveName {c : Builder} {names : List (String × StageId)} {n : String} {i : Nat} {e : Entry} :
    Extends b c names → c.hasFeature n = false → c.stages[i]? = some e →
      Extends b (c.giveName i n) (names ++ [(n, .stage i)])

/-- The stages of one builder are there in another, with more children and names maybe. -/
structure Keeps (b b' : Builder) : Prop where
  registry : b'.registry = b.registry
  source : b'.source = b.source
  sourceCount : b'.sourceCount = b.sourceCount
  stages : ∀ (i : Nat) e, b.stages[i]? = some e → ∃ e', b'.stages[i]? = some e' ∧
    e'.link = e.link ∧ e'.transform = e.transform ∧ e'.parent = e.parent

theorem entry_eq_ok_iff : b.entry (.stage i) = .ok e ↔ b.stages[i]? = some e := by
  unfold entry
  dsimp only
  split <;> simp [*]

theorem Path.ne_nil {links : List Link} (h : b.Path (.stage i) links) : links ≠ [] := by
  cases h
  simp

theorem Path.eq_nil {links : List Link} (h : b.Path .source links) : links = [] := by
  cases h
  rfl

theorem Path.lt_size {links : List Link} (h : b.Path (.stage i) links) : i < b.size := by
  cases h with
  | stage he _ => exact (Array.getElem?_eq_some_iff.1 he).1

theorem outputOf_stage (h : b.stages[i]? = some e) :
    b.outputOf (.stage i) = .ok (e.transform.outputFormat, e.transform.outputCount) := by
  simp [outputOf, entry_eq_ok_iff.2 h]

theorem number_le_of_outputOf {x : AnyFormat × Nat} (h : b.outputOf id = .ok x) :
    id.number ≤ b.size := by
  cases id with
  | source => exact Nat.zero_le _
  | stage i =>
    cases hi : b.stages[i]? with
    | none => simp [outputOf, entry, hi] at h
    | some e => exact (Array.getElem?_eq_some_iff.1 hi).1

theorem children_eq_ok {ids : List Nat} (h : b.children id = .ok ids) : ids = b.childrenOf id := by
  cases id with
  | source =>
    cases h
    rfl
  | stage i =>
    cases hi : b.stages[i]? with
    | none => simp [children, entry, hi] at h
    | some e =>
      simp only [children, entry_eq_ok_iff.2 hi, Except.ok.injEq] at h
      simp [childrenOf, hi, h]

theorem makeEntry_eq_ok_iff {parent : StageId} {link : Link} :
    (b.makeEntry parent link).1 = .ok e ↔ b.Accepts e ∧ e.link = link ∧ e.parent = parent ∧
      e.children = [] ∧ e.features = [] := by
  unfold makeEntry Accepts
  constructor
  · intro h
    split at h
    · cases h
    · rename_i fresh hfresh
      split at h
      · cases h
      · rename_i format count hout
        dsimp only at h
        split at h
        · cases h
        · rename_i n hn
          cases h
          refine ⟨⟨fresh, format, count, n, (fresh.accept format count).warnings, hfresh, hout, ?_⟩,
            rfl, rfl, rfl, rfl⟩
          rw [← hn]
  · rintro ⟨⟨fresh, format, count, n, warnings, hfresh, hout, hacc⟩, rfl, rfl, hc, hf⟩
    cases e
    dsimp only at hc hf hfresh hout hacc ⊢
    subst hc hf
    simp [hfresh, hout, hacc]

section Attach

theorem size_attach : (b.attach e).size = b.size + 1 := by
  unfold attach linkChild
  cases e.parent <;> simp [modify, size]

variable (hp : e.parent.number ≤ b.size)
include hp

theorem getElem?_stages_attach (i : Nat) : (b.attach e).stages[i]? =
    if i = b.size then some e
    else (b.stages[i]?).map fun x =>
      if e.parent = .stage i then { x with children := x.children ++ [b.size] } else x := by
  unfold attach linkChild
  cases he : e.parent with
  | source =>
    by_cases hi : i = b.size
    · simp [hi, size]
    · simp [hi, Array.getElem?_push, show i ≠ b.stages.size from hi]
  | stage j =>
    have hj : j < b.stages.size := by
      rw [he] at hp
      exact hp
    simp only [modify, Array.getElem?_modify, Array.getElem?_push, StageId.stage.injEq, size]
    by_cases hij : j = i
    · have hne : i ≠ b.stages.size := Nat.ne_of_lt (hij ▸ hj)
      simp [hij, hne]
    · simp [hij]

theorem parentOf?_attach (i : Nat) :
    (b.attach e).parentOf? i = if i = b.size then some e.parent else b.parentOf? i := by
  rw [parentOf?, getElem?_stages_attach hp]
  split
  · rfl
  · cases hi : b.stages[i]? with
    | none => simp [parentOf?, hi]
    | some x =>
      simp only [Option.map_some, parentOf?, hi]
      split <;> rfl

theorem childrenOf_attach (hc : e.children = []) (id : StageId) : (b.attach e).childrenOf id =
    if id = e.parent then b.childrenOf id ++ [b.size] else b.childrenOf id := by
  cases id with
  | source =>
    cases he : e.parent <;> simp [childrenOf, attach, linkChild, he, modify]
  | stage i =>
    simp only [childrenOf, getElem?_stages_attach hp]
    by_cases hi : i = b.size
    · have hne : e.parent ≠ .stage i := by
        intro h
        rw [h, hi] at hp
        exact absurd hp (Nat.not_succ_le_self _)
      have hnone : b.stages[i]? = none := Array.getElem?_eq_none (hi ▸ Nat.le_refl _)
      simp [hi, hc, hi ▸ hne.symm, hi ▸ hnone]
    · cases hx : b.stages[i]? with
      | none =>
        have hne : e.parent ≠ .stage i := by
          intro h
          rw [h] at hp
          have := Array.getElem?_eq_none_iff.1 hx
          exact absurd hp (Nat.not_le.2 (Nat.lt_succ_of_le this))
        simp [hi, hne.symm]
      | some x =>
        by_cases hpi : e.parent = .stage i
        · simp [hi, hpi]
        · simp [hi, hpi, Ne.symm hpi]

theorem keeps_attach : b.Keeps (b.attach e) := by
  refine ⟨?_, ?_, ?_, fun i x hx => ?_⟩
  · unfold attach linkChild; cases e.parent <;> rfl
  · unfold attach linkChild; cases e.parent <;> rfl
  · unfold attach linkChild; cases e.parent <;> rfl
  · have hi : i ≠ b.size := Nat.ne_of_lt (Array.getElem?_eq_some_iff.1 hx).1
    rw [getElem?_stages_attach hp, if_neg hi, hx]
    refine ⟨_, rfl, ?_⟩
    split <;> exact ⟨rfl, rfl, rfl⟩

end Attach

section GiveName

variable {n : String}

theorem getElem?_stages_giveName (i j : Nat) (n : String) : (b.giveName i n).stages[j]? =
    (b.stages[j]?).map fun x =>
      if i = j then { x with features := x.features ++ [n] } else x := by
  simp only [giveName, modify, Array.getElem?_modify]
  split <;> simp

theorem size_giveName : (b.giveName i n).size = b.size := by
  simp [giveName, modify, size]

theorem parentOf?_giveName (j : Nat) : (b.giveName i n).parentOf? j = b.parentOf? j := by
  rw [parentOf?, getElem?_stages_giveName, parentOf?]
  cases b.stages[j]? with
  | none => rfl
  | some x =>
    simp only [Option.map_some]
    split <;> rfl

theorem childrenOf_giveName (id : StageId) : (b.giveName i n).childrenOf id = b.childrenOf id := by
  cases id with
  | source => rfl
  | stage j =>
    simp only [childrenOf, getElem?_stages_giveName]
    cases b.stages[j]? with
    | none => rfl
    | some x =>
      simp only [Option.map_some]
      split <;> rfl

theorem keeps_giveName : b.Keeps (b.giveName i n) := by
  refine ⟨rfl, rfl, rfl, fun j x hx => ?_⟩
  rw [getElem?_stages_giveName, hx]
  refine ⟨_, rfl, ?_⟩
  split <;> exact ⟨rfl, rfl, rfl⟩

end GiveName

namespace Keeps

theorem refl (b : Builder) : b.Keeps b := ⟨rfl, rfl, rfl, fun _ e h => ⟨e, h, rfl, rfl, rfl⟩⟩

theorem trans {b₁ b₂ b₃ : Builder} (h : b₁.Keeps b₂) (h' : b₂.Keeps b₃) : b₁.Keeps b₃ := by
  refine ⟨h'.registry.trans h.registry, h'.source.trans h.source,
    h'.sourceCount.trans h.sourceCount, fun i e he => ?_⟩
  obtain ⟨e', he', hl, ht, hp⟩ := h.stages i e he
  obtain ⟨e'', he'', hl', ht', hp'⟩ := h'.stages i e' he'
  exact ⟨e'', he'', hl'.trans hl, ht'.trans ht, hp'.trans hp⟩

theorem outputOf {x : AnyFormat × Nat} (h : b.Keeps b') (hx : b.outputOf id = .ok x) :
    b'.outputOf id = .ok x := by
  cases id with
  | source =>
    cases hx
    simp [Builder.outputOf, h.source, h.sourceCount]
  | stage i =>
    cases hi : b.stages[i]? with
    | none => simp [Builder.outputOf, entry, hi] at hx
    | some e =>
      obtain ⟨e', he', -, ht, -⟩ := h.stages i e hi
      rw [outputOf_stage hi] at hx
      rw [outputOf_stage he', ht, hx]

theorem accepts (h : b.Keeps b') {e' : Entry} (ha : b.Accepts e) (hl : e'.link = e.link)
    (ht : e'.transform = e.transform) (hp : e'.parent = e.parent) : b'.Accepts e' := by
  obtain ⟨fresh, format, count, n, warnings, hfresh, hout, hacc⟩ := ha
  refine ⟨fresh, format, count, n, warnings, ?_, ?_, ?_⟩
  · rw [h.registry, hl, hfresh]
  · rw [hp, h.outputOf hout]
  · rw [ht, hacc]

theorem path {links : List Link} (h : b.Keeps b') (hpath : b.Path id links) : b'.Path id links := by
  induction hpath with
  | source => exact .source
  | stage he _ ih =>
    obtain ⟨e', he', hl, -, hp⟩ := h.stages _ _ he
    have := Path.stage he' (hp ▸ ih)
    rwa [hl] at this

end Keeps

theorem WellFormed.attach (h : b.WellFormed) (he : b.Accepts e) (hc : e.children = []) :
    (b.attach e).WellFormed := by
  obtain ⟨fresh, format, count, n, warnings, -, hout, -⟩ := id he
  have hp := number_le_of_outputOf hout
  have hkeeps := keeps_attach hp
  refine ⟨fun i x hx => ?_, fun id => ?_, fun i x hx => ?_⟩
  · rw [getElem?_stages_attach hp] at hx
    split at hx
    · rename_i hi
      cases hx
      exact hi ▸ hp
    · obtain ⟨y, hy, rfl⟩ := Option.map_eq_some_iff.1 hx
      have := h.parent_le i y hy
      split <;> exact this
  · have hold : ((List.range b.size).filter fun c => (b.attach e).parentOf? c = some id) =
        b.childrenOf id := by
      rw [h.children_eq]
      apply List.filter_congr
      intro c hc
      rw [parentOf?_attach hp, if_neg (Nat.ne_of_lt (List.mem_range.1 hc))]
    rw [childrenOf_attach hp hc, size_attach, List.range_succ, List.filter_append, hold]
    by_cases hid : id = e.parent
    · simp [hid, parentOf?_attach hp]
    · simp [hid, parentOf?_attach hp, Ne.symm hid]
  · rw [getElem?_stages_attach hp] at hx
    split at hx
    · cases hx
      exact hkeeps.accepts he rfl rfl rfl
    · obtain ⟨y, hy, rfl⟩ := Option.map_eq_some_iff.1 hx
      have hy := h.accepts i y hy
      split <;> exact hkeeps.accepts hy rfl rfl rfl

theorem WellFormed.giveName {n : String} (h : b.WellFormed) : (b.giveName i n).WellFormed := by
  refine ⟨fun j x hx => ?_, fun id => ?_, fun j x hx => ?_⟩
  · rw [getElem?_stages_giveName] at hx
    obtain ⟨y, hy, rfl⟩ := Option.map_eq_some_iff.1 hx
    have := h.parent_le j y hy
    split <;> exact this
  · rw [childrenOf_giveName, size_giveName, h.children_eq]
    simp only [parentOf?_giveName]
  · rw [getElem?_stages_giveName] at hx
    obtain ⟨y, hy, rfl⟩ := Option.map_eq_some_iff.1 hx
    have hy := h.accepts j y hy
    split <;> exact keeps_giveName.accepts hy rfl rfl rfl

theorem WellFormed.mem_childrenOf (h : b.WellFormed) {c : Nat} :
    c ∈ b.childrenOf id ↔ b.parentOf? c = some id := by
  rw [h.children_eq, List.mem_filter, List.mem_range, decide_eq_true_iff]
  refine ⟨fun hc => hc.2, fun hc => ⟨?_, hc⟩⟩
  obtain ⟨e, he, -⟩ := Option.map_eq_some_iff.1 hc
  exact (Array.getElem?_eq_some_iff.1 he).1

theorem hasFeature_eq_false_iff {n : String} :
    b.hasFeature n = false ↔ ∀ (i : Nat) e, b.stages[i]? = some e → n ∉ e.features := by
  simp only [hasFeature, Array.any_eq_false, List.contains_iff_mem]
  constructor
  · intro h i e he
    obtain ⟨hi, rfl⟩ := Array.getElem?_eq_some_iff.1 he
    simpa using h i hi
  · intro h i hi
    simpa using h i _ (Array.getElem?_eq_getElem hi)

section Named

variable {names : List (String × StageId)} (h : b.Named names)
include h

theorem Named.attach (hp : e.parent.number ≤ b.size) (hf : e.features = []) :
    (b.attach e).Named names := by
  refine ⟨fun i x hx => ?_, fun x hx => ?_, h.nodup⟩
  · rw [getElem?_stages_attach hp] at hx
    split at hx
    · rename_i hi
      cases hx
      rw [hf, eq_comm, List.map_eq_nil_iff, List.filter_eq_nil_iff]
      intro y hy
      obtain ⟨j, hj, hjy⟩ := h.known y hy
      rw [decide_eq_true_iff, hjy, StageId.stage.injEq]
      omega
    · obtain ⟨y, hy, rfl⟩ := Option.map_eq_some_iff.1 hx
      have := h.features_eq i y hy
      split <;> exact this
  · obtain ⟨i, hi, hxi⟩ := h.known x hx
    exact ⟨i, size_attach.symm ▸ Nat.lt_succ_of_lt hi, hxi⟩

theorem Named.hasFeature_eq_false_iff {n : String} :
    b.hasFeature n = false ↔ n ∉ names.map (·.1) := by
  rw [Builder.hasFeature_eq_false_iff]
  constructor
  · intro hn hmem
    obtain ⟨x, hx, rfl⟩ := List.mem_map.1 hmem
    obtain ⟨i, hi, hxi⟩ := h.known x hx
    refine hn i _ (Array.getElem?_eq_getElem hi) ?_
    rw [h.features_eq i _ (Array.getElem?_eq_getElem hi)]
    exact List.mem_map_of_mem (List.mem_filter.2 ⟨hx, decide_eq_true hxi⟩)
  · intro hn i e he hmem
    rw [h.features_eq i e he] at hmem
    obtain ⟨x, hx, rfl⟩ := List.mem_map.1 hmem
    exact hn (List.mem_map_of_mem (List.mem_filter.1 hx).1)

theorem Named.giveName {n : String} (hn : b.hasFeature n = false) (he : b.stages[i]? = some e) :
    (b.giveName i n).Named (names ++ [(n, .stage i)]) := by
  refine ⟨fun j x hx => ?_, fun x hx => ?_, ?_⟩
  · rw [getElem?_stages_giveName] at hx
    obtain ⟨y, hy, rfl⟩ := Option.map_eq_some_iff.1 hx
    have hfeat := h.features_eq j y hy
    by_cases hij : i = j
    · simp [hij, hfeat]
    · simp [hij, hfeat]
  · rw [size_giveName]
    rcases List.mem_append.1 hx with hx | hx
    · exact h.known x hx
    · cases List.mem_singleton.1 hx
      exact ⟨i, (Array.getElem?_eq_some_iff.1 he).1, rfl⟩
  · rw [List.map_append, List.nodup_append]
    refine ⟨h.nodup, by simp, fun x hx y hy => ?_⟩
    rintro rfl
    rw [List.mem_singleton.1 hy] at hx
    exact h.hasFeature_eq_false_iff.1 hn hx

end Named

namespace Extends

variable {names names' : List (String × StageId)}

theorem trans {b₁ b₂ b₃ : Builder} (h : b₁.Extends b₂ names) (h' : b₂.Extends b₃ names') :
    b₁.Extends b₃ (names ++ names') := by
  induction h' with
  | refl => simpa using h
  | attach _ he ih => exact ih.attach he
  | giveName _ hn he ih =>
    rw [← List.append_assoc]
    exact ih.giveName hn he

theorem keeps (h : b.Extends b' names) : b.Keeps b' := by
  induction h with
  | refl => exact .refl b
  | attach _ he ih =>
    obtain ⟨⟨fresh, format, count, n, warnings, -, hout, -⟩, -⟩ := makeEntry_eq_ok_iff.1 he
    exact ih.trans (keeps_attach (number_le_of_outputOf hout))
  | giveName _ _ _ ih => exact ih.trans keeps_giveName

theorem wellFormed (h : b.Extends b' names) (hb : b.WellFormed) : b'.WellFormed := by
  induction h with
  | refl => exact hb
  | attach _ he ih =>
    obtain ⟨ha, -, -, hc, -⟩ := makeEntry_eq_ok_iff.1 he
    exact ih.attach ha hc
  | giveName _ _ _ ih => exact ih.giveName

theorem named (h : b.Extends b' names') (hb : b.Named names) : b'.Named (names ++ names') := by
  induction h with
  | refl => simpa using hb
  | attach _ he ih =>
    obtain ⟨⟨fresh, format, count, n, warnings, -, hout, -⟩, -, -, -, hf⟩ :=
      makeEntry_eq_ok_iff.1 he
    exact ih.attach (number_le_of_outputOf hout) hf
  | giveName _ hn he ih =>
    rw [← List.append_assoc]
    exact ih.giveName hn he

end Extends

end Builder

end Timbre
