import Timbre.Proofs.Pipeline.Soundness

/-! # Checks of collections

A collection is checked against a format in two ways, from the side of the format and from its own.
A format knows a collection of its kind only, though the identities of the two match also where one
of them is the identity format. The first element that is too short, too long or not finite is the
one that is named, with the first of its samples that is not finite. Main statement:
`AnyBuffers.validate_eq_iff_checks`.
-/
namespace Timbre

/-- Neither an infinity nor something that is no number, in any place of a tuple. -/
def SampleType.Finite : (s : SampleType) → s.Value → Prop
  | .int16, _ => True
  | .int32, _ => True
  | .single, x => Single.isFinite x
  | .tuple _, v => ∀ x ∈ v, Single.isFinite x

theorem SampleType.isValid_iff {s : SampleType} {x : s.Value} : s.isValid x ↔ s.Finite x := by
  cases s with
  | int16 => exact iff_of_true rfl trivial
  | int32 => exact iff_of_true rfl trivial
  | single => exact Iff.rfl
  | tuple n =>
    simp only [isValid, Finite, Vector.all_eq_true, Vector.mem_iff_getElem]
    exact ⟨by rintro h _ ⟨i, hi, rfl⟩; exact h i hi, fun h i hi => h _ ⟨i, hi, rfl⟩⟩

section First

variable {α β : Type} {xs : List α} {g : α × Nat → Option β} {b : β}

/-- The first position that gives anything. -/
theorem findSome?_zipIdx_eq_some_iff {n : Nat} : (xs.zipIdx n).findSome? g = some b ↔
    ∃ i, ∃ h : i < xs.length, g (xs[i], n + i) = some b ∧
      ∀ j, ∀ hj : j < i, g (xs[j], n + j) = none := by
  rw [List.findSome?_eq_some_iff]
  constructor
  · rintro ⟨before, ⟨x, m⟩, after, hsplit, hb, hbefore⟩
    obtain ⟨as, bs, rfl, rfl, hrest⟩ := List.zipIdx_eq_append_iff.1 hsplit
    cases bs with
    | nil => cases hrest
    | cons y bs =>
      cases hrest
      refine ⟨as.length, by simp, by simpa using hb, fun j hj => ?_⟩
      rw [List.getElem_append_left hj]
      exact hbefore _ (List.mem_iff_getElem.2 ⟨j, by simpa using hj, by simp⟩)
  · rintro ⟨i, hi, hb, hbefore⟩
    refine ⟨(xs.take i).zipIdx n, (xs[i], n + i), (xs.drop (i + 1)).zipIdx (n + i + 1), ?_, hb, ?_⟩
    · conv_lhs => rw [← List.take_append_drop i xs, List.zipIdx_append,
        List.drop_eq_getElem_cons hi, List.zipIdx_cons]
      simp [Nat.min_eq_left (Nat.le_of_lt hi)]
    · intro p hp
      obtain ⟨j, hj, rfl⟩ := List.mem_iff_getElem.1 hp
      have hji : j < i := by simp at hj; omega
      simpa using hbefore j hji

theorem find?_zipIdx_eq_some_iff {q : α → Bool} {x : α} {i : Nat} :
    (xs.zipIdx.find? fun p => !q p.1) = some (x, i) ↔
      ∃ h : i < xs.length, xs[i] = x ∧ ¬ q x ∧ ∀ j, ∀ hj : j < i, q xs[j] := by
  rw [List.find?_eq_some_iff_getElem]
  constructor
  · rintro ⟨hx, i', hi, hentry, hbefore⟩
    rw [List.getElem_zipIdx, Nat.zero_add] at hentry
    cases hentry
    exact ⟨by simpa using hi, rfl, by simpa using hx, fun j hj => by simpa using hbefore j hj⟩
  · rintro ⟨hi, rfl, hx, hbefore⟩
    exact ⟨by simpa using hx, i, by simpa using hi, by simp,
      fun j hj => by simpa using hbefore j hj⟩

end First

namespace Format

variable {k : Kind}

/-- What is asked of an element: the length of the format, and finite samples. -/
def Admits : {k : Kind} → Format k → k.Element → Prop
  | .array s, f, xs => xs.size = f.size ∧ ∀ x ∈ xs, s.Finite x
  | .single s, _, x => s.Finite x
  | .identity, _, _ => True

/-- What an element falls short in: its length, or else its first sample that is not finite. -/
inductive Lacks : {k : Kind} → Format k → k.Element → Flaw → Prop
  | length {s : SampleType} {f : Format (.array s)} {xs : Array s.Value}
    (hsize : xs.size ≠ f.size) : Lacks f xs (.length xs.size f.size)
  | sample {s : SampleType} {f : Format (.array s)} {xs : Array s.Value}
    (hsize : xs.size = f.size) {i : Nat} (hi : i < xs.size) (hbad : ¬ s.Finite xs[i])
    (hbefore : ∀ j, ∀ hj : j < i, s.Finite xs[j]) : Lacks f xs (.sample i (s.text xs[i]))
  | value {s : SampleType} {f : Format (.single s)} {x : s.Value} (hbad : ¬ s.Finite x) :
    Lacks f x (.value (s.text x))

theorem flaw?_eq_find? {s : SampleType} {f : Format (.array s)} {xs : Array s.Value}
    (hsize : xs.size = f.size) : f.flaw? xs =
      (xs.toList.zipIdx.find? fun p => !s.isValid p.1).map fun p => .sample p.2 (s.text p.1) :=
  if_pos hsize

theorem flaw?_of_size {s : SampleType} {f : Format (.array s)} {xs : Array s.Value}
    (hsize : xs.size ≠ f.size) : f.flaw? xs = some (.length xs.size f.size) := if_neg hsize

theorem flaw?_eq_none_iff {f : Format k} {x : k.Element} : f.flaw? x = none ↔ f.Admits x := by
  cases k with
  | array s =>
    by_cases hsize : x.size = f.size
    · rw [flaw?_eq_find? hsize, Option.map_eq_none_iff, List.find?_eq_none]
      simp only [Bool.not_eq_true', Bool.not_eq_false, SampleType.isValid_iff]
      rw [Admits, and_iff_right hsize]
      exact ⟨fun h y hy => by
        obtain ⟨i, hi⟩ := List.mem_iff_getElem?.1 (Array.mem_toList_iff.2 hy)
        exact h (y, i) (List.mem_zipIdx_iff_getElem?.2 hi),
        fun h p hp => h p.1 (Array.mem_toList_iff.1 (List.fst_mem_of_mem_zipIdx hp))⟩
    · exact iff_of_false (by simp [flaw?_of_size hsize]) fun h => hsize h.1
  | single s => simp [flaw?, Admits, SampleType.isValid_iff]
  | identity => exact iff_of_true rfl trivial

theorem flaw?_eq_some_iff {f : Format k} {x : k.Element} {flaw : Flaw} :
    f.flaw? x = some flaw ↔ f.Lacks x flaw := by
  constructor
  · intro h
    cases k with
    | array s =>
      by_cases hsize : x.size = f.size
      · rw [flaw?_eq_find? hsize, Option.map_eq_some_iff] at h
        obtain ⟨⟨y, i⟩, hfind, rfl⟩ := h
        obtain ⟨hi, rfl, hbad, hbefore⟩ := find?_zipIdx_eq_some_iff.1 hfind
        exact .sample hsize hi (mt SampleType.isValid_iff.2 hbad)
          fun j hj => SampleType.isValid_iff.1 (hbefore j hj)
      · rw [flaw?_of_size hsize] at h
        cases h
        exact .length hsize
    | single s =>
      dsimp only [flaw?] at h
      split at h
      · cases h
      · rename_i hbad
        cases h
        exact .value (mt SampleType.isValid_iff.2 hbad)
    | identity => cases h
  · intro h
    cases h with
    | length hsize => exact flaw?_of_size hsize
    | @sample s f xs hsize i hi hbad hbefore =>
      have hfind : (xs.toList.zipIdx.find? fun p => !s.isValid p.1) = some (xs[i], i) :=
        find?_zipIdx_eq_some_iff.2 ⟨hi, rfl, mt SampleType.isValid_iff.1 hbad,
          fun j hj => SampleType.isValid_iff.2 (hbefore j hj)⟩
      rw [flaw?_eq_find? hsize, hfind]
      rfl
    | @value s f x hbad => exact if_neg (mt SampleType.isValid_iff.1 hbad)

theorem firstFlaw?_eq_some_iff {f : Format k} {xs : List k.Element} {i : Nat} {flaw : Flaw} :
    f.firstFlaw? xs = some (i, flaw) ↔
      ∃ h : i < xs.length, f.Lacks xs[i] flaw ∧ ∀ j, ∀ hj : j < i, f.Admits xs[j] := by
  rw [firstFlaw?, findSome?_zipIdx_eq_some_iff]
  simp only [Option.map_eq_some_iff, Option.map_eq_none_iff, flaw?_eq_some_iff, flaw?_eq_none_iff,
    Nat.zero_add, Prod.mk.injEq]
  constructor
  · rintro ⟨_, hi, ⟨flaw, hlacks, rfl, rfl⟩, hbefore⟩
    exact ⟨hi, hlacks, hbefore⟩
  · rintro ⟨hi, hlacks, hbefore⟩
    exact ⟨i, hi, ⟨flaw, hlacks, rfl, rfl⟩, hbefore⟩

theorem downcast_eq_error (f : Format k) {b : AnyBuffers} (hb : b.kind ≠ k) :
    f.downcast b = .error (.mismatch k.id b.id) := by
  have hnone : b.as? k = none := dif_neg hb
  rw [downcast, hnone]
  split <;> rfl

def listing (f : Format k) (c : Buffers k) : String :=
  "Buffers count: " ++ toString c.count ++ "\n" ++
    String.join (c.elements.toList.mapIdx fun i x =>
      "[" ++ toString i ++ "] " ++ f.elementText x ++ "\n")

theorem dump_eq (hk : k ≠ .identity) (f : Format k) (b : AnyBuffers) :
    f.dump b = (f.downcast b).map f.listing := by
  rw [dump]
  · cases f.downcast b <;> rfl
  · exact fun _ h _ => hk h

end Format

/-- What a check of a collection answers. -/
inductive Checks : AnyFormat → AnyBuffers → Except Error Unit → Prop
  | identity (f : Format .identity) (b : AnyBuffers) : Checks ⟨.identity, f⟩ b (.ok ())
  | mismatch {f : AnyFormat} {b : AnyBuffers} (hf : f.kind ≠ .identity) (hb : b.kind ≠ f.kind) :
    Checks f b (.error (.formatMismatch f.id.name b.id.name))
  | lacks {k : Kind} (hk : k ≠ .identity) (f : Format k) (c : Buffers k) {i : Nat}
    (hi : i < c.elements.size) {flaw : Flaw} (hlacks : f.Lacks c.elements[i] flaw)
    (hbefore : ∀ j, ∀ hj : j < i, f.Admits c.elements[j]) :
    Checks ⟨k, f⟩ ⟨k, c⟩ (.error (.invalidBuffer f.describe i flaw))
  | admits {k : Kind} (hk : k ≠ .identity) (f : Format k) (c : Buffers k)
    (hall : ∀ x ∈ c.elements, f.Admits x) : Checks ⟨k, f⟩ ⟨k, c⟩ (.ok ())

namespace Checks

variable {f : AnyFormat} {b : AnyBuffers} {r : Except Error Unit}

theorem validate_eq (h : Checks f b r) : f.format.validate b = r := by
  cases h with
  | identity f b => rfl
  | mismatch hf hb => rw [Format.validate_eq hf, Format.downcast_eq_error _ hb]; rfl
  | @lacks k hk f c i hi flaw hlacks hbefore =>
    have hfirst : f.firstFlaw? c.elements.toList = some (i, flaw) :=
      Format.firstFlaw?_eq_some_iff.2 ⟨hi, hlacks, hbefore⟩
    rw [Format.validate_eq hk, Format.downcast_mk]
    dsimp only
    rw [hfirst]
  | @admits k hk f c hall =>
    have hnone : f.firstFlaw? c.elements.toList = none :=
      (f.firstFlaw?_eq_none_iff _).2 fun x hx =>
        Format.flaw?_eq_none_iff.2 (hall x (Array.mem_toList_iff.1 hx))
    rw [Format.validate_eq hk, Format.downcast_mk]
    dsimp only
    rw [hnone]

theorem of_validate (f : AnyFormat) (b : AnyBuffers) : Checks f b (f.format.validate b) := by
  obtain ⟨k, f⟩ := f
  obtain ⟨j, c⟩ := b
  by_cases hk : k = .identity
  · subst hk
    exact .identity f _
  · by_cases hj : j = k
    · subst hj
      cases hfirst : f.firstFlaw? c.elements.toList with
      | none =>
        have hadmits : Checks ⟨j, f⟩ ⟨j, c⟩ (.ok ()) :=
          .admits hk f c fun x hx => Format.flaw?_eq_none_iff.1 <|
            (f.firstFlaw?_eq_none_iff _).1 hfirst x (Array.mem_toList_iff.2 hx)
        exact hadmits.validate_eq ▸ hadmits
      | some first =>
        obtain ⟨i, flaw⟩ := first
        obtain ⟨hi, hlacks, hbefore⟩ := Format.firstFlaw?_eq_some_iff.1 hfirst
        have hchecks := Checks.lacks hk f c hi hlacks hbefore
        exact hchecks.validate_eq ▸ hchecks
    · have hmismatch : Checks ⟨k, f⟩ ⟨j, c⟩ _ := .mismatch hk hj
      exact hmismatch.validate_eq ▸ hmismatch

end Checks

namespace AnyBuffers

variable {f : AnyFormat} {b : AnyBuffers}

theorem sameAs_of_kind (h : f.kind = .identity ∨ b.kind = f.kind) : b.id.sameAs f.id := by
  obtain hf | hb := h
  · rw [FormatId.sameAs_comm, AnyFormat.id, hf]
    rfl
  · rw [AnyBuffers.id, AnyFormat.id, hb, FormatId.sameAs_self]

/-- What the identities tell apart, the format would have refused in the same words. -/
theorem checkFormat_bind {α : Type} {use : AnyBuffers → Except Error α}
    (h : f.kind ≠ .identity → b.kind ≠ f.kind → use b = .error (.mismatch f.id b.id)) :
    (match b.checkFormat f with
      | .error e => .error e
      | .ok () => use b) = use b := by
  unfold checkFormat
  by_cases hsame : b.id.sameAs f.id
  · rw [if_pos hsame]
  · obtain ⟨hf, hb⟩ := not_or.1 (mt sameAs_of_kind hsame)
    rw [if_neg hsame]
    exact (h hf hb).symm

theorem validate_eq (b : AnyBuffers) (f : AnyFormat) : b.validate f = f.format.validate b :=
  checkFormat_bind fun hf hb => (Checks.mismatch hf hb).validate_eq

theorem dump_of_kind_ne (hf : f.kind ≠ .identity) (hb : b.kind ≠ f.kind) :
    f.format.dump b = .error (.mismatch f.id b.id) := by
  rw [Format.dump_eq hf, Format.downcast_eq_error _ hb]
  rfl

theorem exists_dump (h : f.kind = .identity ∨ b.kind = f.kind) :
    ∃ text, f.format.dump b = .ok text := by
  obtain ⟨k, f⟩ := f
  obtain ⟨j, c⟩ := b
  by_cases hk : k = .identity
  · subst hk
    exact ⟨_, rfl⟩
  · obtain rfl : j = k := h.resolve_left hk
    exact ⟨f.listing c, by rw [Format.dump_eq hk, Format.downcast_mk]; rfl⟩

theorem dump_eq (b : AnyBuffers) (f : AnyFormat) : b.dump f = f.format.dump b :=
  checkFormat_bind dump_of_kind_ne

/-- Checking and listing a collection is the same from either side. A check answers exactly what
`Checks` says. A collection of the kind of the format is listed, and so is any by the identity
format; the others are refused as they are by a check. -/
theorem validate_eq_iff_checks (b : AnyBuffers) (f : AnyFormat) :
    b.validate f = f.format.validate b ∧ b.dump f = f.format.dump b ∧
    (∀ r, b.validate f = r ↔ Checks f b r) ∧
    ((∃ text, b.dump f = .ok text) ↔ f.kind = .identity ∨ b.kind = f.kind) ∧
    ∀ e, b.dump f = .error e ↔
      (f.kind ≠ .identity ∧ b.kind ≠ f.kind) ∧ e = .formatMismatch f.id.name b.id.name := by
  refine ⟨validate_eq b f, dump_eq b f, fun r => ?_, ?_⟩
  · rw [validate_eq]
    exact ⟨fun h => h ▸ Checks.of_validate f b, Checks.validate_eq⟩
  · by_cases hkinds : f.kind = .identity ∨ b.kind = f.kind
    · obtain ⟨text, htext⟩ := exists_dump hkinds
      have hnot : ¬ (f.kind ≠ .identity ∧ b.kind ≠ f.kind) := not_and_or.2 (by simpa using hkinds)
      rw [dump_eq, htext]
      exact ⟨iff_of_true ⟨text, rfl⟩ hkinds, fun e => iff_of_false nofun fun h => hnot h.1⟩
    · have hboth := not_or.1 hkinds
      rw [dump_eq, dump_of_kind_ne hboth.1 hboth.2]
      exact ⟨iff_of_false nofun hkinds, fun e =>
        ⟨fun h => ⟨hboth, (Except.error.inj h).symm⟩, fun h => congrArg _ h.2.symm⟩⟩

/-- Arrays of which the second one is too short. -/
def ragged : Buffers (.array .int16) := .ofElements ⟨(2 : Nat), none⟩ #[#[1, -2], #[3], #[]]

theorem validate_eq_iff_checks_ragged :
    validate ⟨.array .int16, ragged⟩ ⟨.array .int16, ragged.format⟩ =
      .error (.invalidBuffer "ArrayFormat<i16> [2]" 1 (.length 1 2)) := by
  have hadmits : ragged.format.Admits ragged.elements[0] := ⟨rfl, fun _ _ => trivial⟩
  have hlacks : ragged.format.Lacks ragged.elements[1] (.length 1 2) := .length (by decide)
  have hchecks : Checks ⟨.array .int16, ragged.format⟩ ⟨.array .int16, ragged⟩
      (.error (.invalidBuffer "ArrayFormat<i16> [2]" 1 (.length 1 2))) := by
    refine .lacks (by decide) ragged.format ragged (by decide) hlacks fun j hj => ?_
    obtain rfl : j = 0 := by omega
    exact hadmits
  exact ((validate_eq_iff_checks _ _).2.2.1 _).2 hchecks

/-- No array format knows a collection without a format of its own. -/
example (f : Format (.array .int16)) (c : Buffers .identity) : f.validate ⟨.identity, c⟩ =
    .error (.formatMismatch "ArrayFormat<i16>" "identity") := rfl

end AnyBuffers

end Timbre
