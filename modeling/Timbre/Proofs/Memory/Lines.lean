import Mathlib.Data.List.Basic
import Timbre.Memory.Dot

/-! # Lines of a drawing

A drawing has a line for each node, each child and each step of the order. A line can be read in one
way only: a number ends where no digit follows, and an escaped text ends at the first backslash that
belongs to an `n`, since those of the text itself come in pairs. So from lines that stand one after
the other each can be told in turn. A reader that looks for strings only finds the captions. Main
statements: `Line.eq_of_flatMap_text` and `Line.strings_flatMap_text`.
-/
namespace Timbre.Memory.Dot

section Numbers

variable {m n : Nat} {r s : List Char}

/-- A number cannot go on with the text. -/
def EndsNumber (r : List Char) : Prop := ∀ c ∈ r.head?, ¬ c.isDigit

@[simp] theorem endsNumber_cons {c : Char} : EndsNumber (c :: r) ↔ ¬ c.isDigit := by
  simp [EndsNumber]

theorem takeWhile_toDigits_append (hr : EndsNumber r) (n : Nat) :
    (Nat.toDigits 10 n ++ r).takeWhile Char.isDigit = Nat.toDigits 10 n := by
  have hrest : r.takeWhile Char.isDigit = [] := by
    cases r with
    | nil => rfl
    | cons c r => exact List.takeWhile_cons_of_neg (hr c rfl)
  rw [List.takeWhile_append_of_pos fun c hmem =>
    Nat.isDigit_of_mem_toDigits (by decide) (by decide) hmem, hrest, List.append_nil]

theorem number_inj (hr : EndsNumber r) (hs : EndsNumber s)
    (h : Nat.toDigits 10 m ++ r = Nat.toDigits 10 n ++ s) : m = n ∧ r = s := by
  have hdigits : Nat.toDigits 10 m = Nat.toDigits 10 n := by
    rw [← takeWhile_toDigits_append hr m, h, takeWhile_toDigits_append hs]
  refine ⟨?_, List.append_cancel_left (hdigits ▸ h)⟩
  rw [← @Nat.ofDigitChars_ten_toDigits m, hdigits, Nat.ofDigitChars_ten_toDigits]

end Numbers

section Texts

variable {p q r s : List Char}

/-- A text that is written as it is. -/
def Plain (p : List Char) : Prop := ∀ c ∈ p, c ≠ '\\' ∧ c ≠ '"'

theorem escapeChar_of_ne {c : Char} (h : c ≠ '\\' ∧ c ≠ '"') : escapeChar c = [c] :=
  if_neg (not_or.2 h)

theorem Plain.append (hp : Plain p) (hq : Plain q) : Plain (p ++ q) :=
  List.forall_mem_append.2 ⟨hp, hq⟩

theorem Plain.escape_eq (h : Plain p) : p.flatMap escapeChar = p := by
  induction p with
  | nil => rfl
  | cons c p ih =>
    obtain ⟨hc, hp⟩ := List.forall_mem_cons.1 h
    rw [List.flatMap_cons, escapeChar_of_ne hc, ih hp]
    rfl

theorem plain_toDigits (n : Nat) : Plain (Nat.toDigits 10 n) := by
  intro c hc
  have hdigit : c.isDigit := Nat.isDigit_of_mem_toDigits (by decide) (by decide) hc
  exact ⟨by rintro rfl; simp at hdigit, by rintro rfl; simp at hdigit⟩

theorem escapeChar_of_special {c : Char} (h : ¬ (c ≠ '\\' ∧ c ≠ '"')) :
    escapeChar c = ['\\', c] := if_pos (by tauto)

theorem escapeChar_inj {c d : Char} (h : escapeChar c ++ p = escapeChar d ++ q) :
    c = d ∧ p = q := by
  by_cases hc : c ≠ '\\' ∧ c ≠ '"' <;> by_cases hd : d ≠ '\\' ∧ d ≠ '"'
  · rw [escapeChar_of_ne hc, escapeChar_of_ne hd] at h
    exact List.cons_eq_cons.1 h
  · rw [escapeChar_of_ne hc, escapeChar_of_special hd] at h
    exact absurd (List.cons_eq_cons.1 h).1 hc.1
  · rw [escapeChar_of_special hc, escapeChar_of_ne hd] at h
    exact absurd (List.cons_eq_cons.1 h).1.symm hd.1
  · rw [escapeChar_of_special hc, escapeChar_of_special hd] at h
    exact List.cons_eq_cons.1 (List.cons_eq_cons.1 h).2

/-- A backslash of an escaped text is followed by a backslash or a quote. -/
theorem escapeChar_append_ne (c : Char) : escapeChar c ++ p ≠ '\\' :: 'n' :: q := by
  intro h
  by_cases hc : c ≠ '\\' ∧ c ≠ '"'
  · rw [escapeChar_of_ne hc] at h
    exact hc.1 (List.cons_eq_cons.1 h).1
  · rw [escapeChar_of_special hc] at h
    obtain rfl : c = 'n' := (List.cons_eq_cons.1 (List.cons_eq_cons.1 h).2).1
    exact hc (by decide)

/-- So an escaped text ends at the first backslash before an `n`. -/
theorem escape_inj (h : p.flatMap escapeChar ++ '\\' :: 'n' :: r =
    q.flatMap escapeChar ++ '\\' :: 'n' :: s) : p = q ∧ r = s := by
  induction p generalizing q with
  | nil =>
    cases q with
    | nil => exact ⟨rfl, (List.cons_eq_cons.1 (List.cons_eq_cons.1 h).2).2⟩
    | cons d q =>
      rw [List.flatMap_cons, List.append_assoc] at h
      exact absurd h.symm (escapeChar_append_ne d)
  | cons c p ih =>
    cases q with
    | nil =>
      rw [List.flatMap_cons, List.append_assoc] at h
      exact absurd h (escapeChar_append_ne c)
    | cons d q =>
      rw [List.flatMap_cons, List.flatMap_cons, List.append_assoc, List.append_assoc] at h
      obtain ⟨rfl, hrest⟩ := escapeChar_inj h
      exact ⟨congrArg _ (ih hrest).1, (ih hrest).2⟩

end Texts

def labelText : Option String → List Char
  | some label => label.toList.flatMap escapeChar ++ ['\\', 'n']
  | none => []

def addressText : Option Nat → List Char
  | some a => Nat.toDigits 10 a
  | none => ['-']

def itemText (i item : Nat) : List Char :=
  Nat.toDigits 10 i ++ " item ".toList ++ Nat.toDigits 10 item

def sizeText (b : Block) : List Char :=
  ['s', 'i', 'z', 'e', ' '] ++ Nat.toDigits 10 b.size ++ " @ ".toList ++ addressText b.address

def captionText (i : Nat) (b : Block) : List Char :=
  labelText b.label ++ '#' :: (itemText i b.item ++ '\\' :: 'n' :: sizeText b)

theorem toList_caption (i : Nat) (n : Node) : (caption i n).toList = captionText i n.toBlock := by
  unfold caption captionText itemText sizeText labelText addressText
  cases n.label <;> cases n.address <;> simp [escape]

theorem plain_itemText (i item : Nat) : Plain (itemText i item) :=
  ((plain_toDigits i).append (by simp [Plain])).append (plain_toDigits item)

section Captions

variable {i : Nat} {b c : Block} {l m : Option String} {p q r s : List Char}

theorem labelText_ne (hq : Plain q) (hs : ∀ t, s ≠ '#' :: t) (label : String) :
    labelText (some label) ++ '#' :: p ≠ '#' :: (q ++ '\\' :: 'n' :: s) := by
  intro h
  have hplain : Plain ('#' :: q) := List.forall_mem_cons.2 ⟨by decide, hq⟩
  rw [labelText, List.append_assoc, ← List.cons_append, ← hplain.escape_eq] at h
  exact hs p (escape_inj h).2.symm

theorem labelText_inj (hp : Plain p) (hq : Plain q) (hr : ∀ t, r ≠ '#' :: t)
    (hs : ∀ t, s ≠ '#' :: t) (h : labelText l ++ '#' :: (p ++ '\\' :: 'n' :: r) =
      labelText m ++ '#' :: (q ++ '\\' :: 'n' :: s)) :
    l = m ∧ p ++ '\\' :: 'n' :: r = q ++ '\\' :: 'n' :: s := by
  cases l with
  | none =>
    cases m with
    | none => exact ⟨rfl, (List.cons_eq_cons.1 h).2⟩
    | some label => exact absurd h.symm (labelText_ne hp hr label)
  | some label =>
    cases m with
    | none => exact absurd h (labelText_ne hq hs label)
    | some label' =>
      rw [labelText, labelText, List.append_assoc, List.append_assoc] at h
      obtain ⟨hlabel, hrest⟩ := escape_inj h
      exact ⟨congrArg some (String.toList_injective hlabel), (List.cons_eq_cons.1 hrest).2⟩

theorem toDigits_append_ne (n : Nat) : Nat.toDigits 10 n ++ r ≠ '-' :: s := by
  intro h
  obtain ⟨c, cs, hdigits⟩ := List.exists_cons_of_ne_nil (@Nat.toDigits_ne_nil n 10)
  have hc : c.isDigit :=
    Nat.isDigit_of_mem_toDigits (by decide) (by decide) (hdigits ▸ List.mem_cons_self)
  rw [hdigits] at h
  exact absurd ((List.cons_eq_cons.1 h).1 ▸ hc) (by decide)

theorem addressText_inj {a b : Option Nat}
    (h : addressText a ++ '"' :: r = addressText b ++ '"' :: s) : a = b ∧ r = s := by
  cases a with
  | none =>
    cases b with
    | none => exact ⟨rfl, (List.cons_eq_cons.1 (List.cons_eq_cons.1 h).2).2⟩
    | some b => exact absurd h.symm (toDigits_append_ne b)
  | some a =>
    cases b with
    | none => exact absurd h (toDigits_append_ne a)
    | some b =>
      obtain ⟨rfl, hrest⟩ := number_inj (by simp) (by simp) h
      exact ⟨rfl, (List.cons_eq_cons.1 hrest).2⟩

theorem captionText_inj (h : captionText i b ++ '"' :: r = captionText i c ++ '"' :: s) :
    (b.label = c.label ∧ b.item = c.item ∧ b.size = c.size ∧ b.address = c.address) ∧ r = s := by
  simp only [captionText, List.append_assoc, List.cons_append] at h
  obtain ⟨hlabel, h⟩ := labelText_inj (plain_itemText _ _) (plain_itemText _ _)
    (by simp [sizeText]) (by simp [sizeText]) h
  simp only [itemText, List.append_assoc] at h
  obtain ⟨hitem, h⟩ := number_inj (by simp) (by simp)
    (List.append_cancel_left (List.append_cancel_left h))
  replace h := (List.cons_eq_cons.1 (List.cons_eq_cons.1 h).2).2
  simp only [sizeText, List.append_assoc] at h
  obtain ⟨hsize, h⟩ := number_inj (by simp) (by simp)
    (List.append_cancel_left h)
  obtain ⟨haddress, h⟩ := addressText_inj (List.append_cancel_left h)
  exact ⟨⟨hlabel, hitem, hsize, haddress⟩, h⟩

end Captions

/-- A line of a drawing: a node, an edge to a child, or one along the order. -/
inductive Line
  | node (i : Nat) (b : Block)
  | child (i c : Nat)
  | next (i j : Nat)

def openText : List Char := [' ', '[', 'l', 'a', 'b', 'e', 'l', '=']

def arrowText : List Char := [' ', '-', '>', ' ', 'n']

def styleText (retained : Bool) : List Char :=
  if retained then ", style=bold];\n".toList else "];\n".toList

namespace Line

def number : Line → Nat
  | .node i _ => i
  | .child i _ => i
  | .next i _ => i

def body : Line → List Char
  | .node i b => openText ++ '"' :: (captionText i b ++ '"' :: styleText b.retained)
  | .child _ c => arrowText ++ (Nat.toDigits 10 c ++ ";\n".toList)
  | .next _ j => arrowText ++
    (Nat.toDigits 10 j ++ " [style=dashed, color=gray, constraint=false];\n".toList)

def text (l : Line) : List Char := [' ', ' ', 'n'] ++ (Nat.toDigits 10 l.number ++ l.body)

theorem text_node (i : Nat) (n : Node) : (Line.node i n.toBlock).text = (nodeLine i n).toList := by
  simp only [text, number, body, nodeLine, nodeName, styleText, ← toList_caption]
  cases n.retained <;> simp [openText]

theorem text_child (i c : Nat) : (Line.child i c).text =
    ("  " ++ nodeName i ++ " -> " ++ nodeName c ++ ";\n").toList := by
  simp [text, number, body, nodeName, arrowText]

theorem text_next (p : Nat × Nat) : (Line.next p.1 p.2).text = (orderLine p).toList := by
  simp [text, number, body, orderLine, nodeName, arrowText]

variable {l m : Line} {r s : List Char}

theorem endsNumber_body_append (l : Line) (r : List Char) : EndsNumber (l.body ++ r) := by
  cases l <;> simp [body, openText, arrowText]

theorem styleText_inj {a b : Bool} (h : styleText a ++ r = styleText b ++ s) :
    a = b ∧ r = s := by
  cases a <;> cases b <;> simp_all [styleText]

theorem node_inj {i : Nat} {b c : Block}
    (h : (Line.node i b).body ++ r = (Line.node i c).body ++ s) :
    Line.node i b = Line.node i c ∧ r = s := by
  simp only [body, List.append_assoc, List.cons_append] at h
  obtain ⟨⟨hlabel, hitem, hsize, haddress⟩, h⟩ :=
    captionText_inj (List.cons_eq_cons.1 (List.append_cancel_left h)).2
  obtain ⟨hretained, hrest⟩ := styleText_inj h
  cases b
  cases c
  cases hlabel
  cases hitem
  cases hsize
  cases haddress
  cases hretained
  exact ⟨rfl, hrest⟩

theorem open_append_ne : openText ++ r ≠ arrowText ++ s := by simp [openText, arrowText]

theorem edge_inj {c d : Nat} {p q : List Char} (hp : EndsNumber (p ++ r)) (hq : EndsNumber (q ++ s))
    (h : arrowText ++ (Nat.toDigits 10 c ++ p) ++ r = arrowText ++ (Nat.toDigits 10 d ++ q) ++ s) :
    c = d ∧ p ++ r = q ++ s := by
  simp only [List.append_assoc] at h
  exact number_inj hp hq (List.append_cancel_left h)

theorem child_ne_next {i c j k : Nat} :
    (Line.child i c).body ++ r ≠ (Line.next j k).body ++ s := by
  intro h
  have hrest := (edge_inj (by simp) (by simp) h).2
  simp at hrest

theorem eq_of_body_append (hnumber : l.number = m.number) (h : l.body ++ r = m.body ++ s) :
    l = m ∧ r = s := by
  cases l with
  | node i b =>
    cases m with
    | node j c =>
      obtain rfl : i = j := hnumber
      exact node_inj h
    | child j c => exact absurd h open_append_ne
    | next j k => exact absurd h open_append_ne
  | child i c =>
    cases m with
    | node j b => exact absurd h.symm open_append_ne
    | child j d =>
      obtain rfl : i = j := hnumber
      obtain ⟨rfl, hrest⟩ := edge_inj (by simp) (by simp) h
      exact ⟨rfl, List.append_cancel_left hrest⟩
    | next j k => exact absurd h child_ne_next
  | next i k =>
    cases m with
    | node j b => exact absurd h.symm open_append_ne
    | child j c => exact absurd h.symm child_ne_next
    | next j k' =>
      obtain rfl : i = j := hnumber
      obtain ⟨rfl, hrest⟩ := edge_inj (by simp) (by simp) h
      exact ⟨rfl, List.append_cancel_left hrest⟩

/-- No line is the beginning of another, whatever comes after it. -/
theorem eq_of_text_append (h : l.text ++ r = m.text ++ s) : l = m ∧ r = s := by
  simp only [text, List.append_assoc] at h
  obtain ⟨hnumber, h⟩ := number_inj (l.endsNumber_body_append r) (m.endsNumber_body_append s)
    (List.append_cancel_left h)
  exact eq_of_body_append hnumber h

theorem eq_of_flatMap_text {ls ms : List Line}
    (h : ls.flatMap text ++ '\x7d' :: r = ms.flatMap text ++ '\x7d' :: s) : ls = ms := by
  have hne (m : Line) {r s : List Char} : '\x7d' :: r ≠ m.text ++ s := by simp [text]
  induction ls generalizing ms with
  | nil =>
    cases ms with
    | nil => rfl
    | cons m ms =>
      rw [List.flatMap_cons, List.append_assoc] at h
      exact absurd h (hne m)
  | cons l ls ih =>
    cases ms with
    | nil =>
      rw [List.flatMap_cons, List.append_assoc] at h
      exact absurd h.symm (hne l)
    | cons m ms =>
      rw [List.flatMap_cons, List.flatMap_cons, List.append_assoc, List.append_assoc] at h
      obtain ⟨rfl, hrest⟩ := eq_of_text_append h
      rw [ih hrest]

end Line

/-- Where a reader of a drawing stands: outside of strings, or in one of which it has read the
front, perhaps up to a backslash. -/
inductive Reading
  | outside
  | inside (front : List Char)
  | escaped (front : List Char)

/-- The strings of a text, without their quotes. Only a backslash keeps a quote from ending one. -/
def strings : Reading → List Char → List (List Char)
  | _, [] => []
  | .outside, c :: cs => strings (if c = '"' then .inside [] else .outside) cs
  | .inside front, c :: cs =>
    if c = '"' then front :: strings .outside cs
    else strings (if c = '\\' then .escaped (front ++ [c]) else .inside (front ++ [c])) cs
  | .escaped front, c :: cs => strings (.inside (front ++ [c])) cs

section Strings

variable {p q r : List Char}

/-- A text that does not end the string that it stands in, and leaves no backslash behind. -/
def Within (p : List Char) : Prop :=
  ∀ front r, strings (.inside front) (p ++ r) = strings (.inside (front ++ p)) r

theorem Within.append (hp : Within p) (hq : Within q) : Within (p ++ q) := by
  intro front r
  rw [List.append_assoc, hp, hq, List.append_assoc]

theorem within_nil : Within [] := fun front r => by rw [List.append_nil]; rfl

theorem within_escaped (c : Char) : Within ['\\', c] := by
  intro front r
  rw [← List.singleton_append, ← List.append_assoc]
  rfl

theorem Plain.within (h : Plain p) : Within p := by
  induction p with
  | nil => exact within_nil
  | cons c p ih =>
    obtain ⟨⟨hbackslash, hquote⟩, hp⟩ := List.forall_mem_cons.1 h
    have hc : Within [c] := by
      intro front r
      rw [List.singleton_append, strings, if_neg hquote, if_neg hbackslash]
    exact hc.append (ih hp)

theorem within_escape (p : List Char) : Within (p.flatMap escapeChar) := by
  induction p with
  | nil => exact within_nil
  | cons c p ih =>
    have hc : Within (escapeChar c) := by
      by_cases h : c ≠ '\\' ∧ c ≠ '"'
      · rw [escapeChar_of_ne h]
        exact Plain.within (List.forall_mem_singleton.2 h)
      · rw [escapeChar_of_special h]
        exact within_escaped c
    exact hc.append ih

theorem within_labelText (l : Option String) : Within (labelText l) := by
  cases l with
  | none => exact within_nil
  | some label => exact (within_escape _).append (within_escaped 'n')

theorem plain_addressText (a : Option Nat) : Plain (addressText a) := by
  cases a with
  | none => simp [Plain, addressText]
  | some a => exact plain_toDigits a

theorem plain_sizeText (b : Block) : Plain (sizeText b) := by
  have hsize : Plain ['s', 'i', 'z', 'e', ' '] := by simp [Plain]
  have hat : Plain " @ ".toList := by simp [Plain]
  exact ((hsize.append (plain_toDigits _)).append hat).append (plain_addressText _)

theorem within_captionText (i : Nat) (b : Block) : Within (captionText i b) := by
  have hitem : Plain ('#' :: itemText i b.item) :=
    List.forall_mem_cons.2 ⟨by decide, plain_itemText i b.item⟩
  have hbody := (hitem.within.append (within_escaped 'n')).append (plain_sizeText b).within
  have hcaption := (within_labelText b.label).append hbody
  simpa [captionText] using hcaption

theorem strings_outside_append (hp : '"' ∉ p) :
    strings .outside (p ++ r) = strings .outside r := by
  induction p with
  | nil => rfl
  | cons c p ih =>
    obtain ⟨hc, hp⟩ := not_or.1 (mt List.mem_cons.2 hp)
    rw [List.cons_append, strings, if_neg (Ne.symm hc), ih hp]

end Strings

namespace Line

def caption? : Line → Option (List Char)
  | .node i b => some (captionText i b)
  | .child _ _ => none
  | .next _ _ => none

theorem quote_notMem_toDigits (n : Nat) : '"' ∉ Nat.toDigits 10 n :=
  fun h => (plain_toDigits n _ h).2 rfl

theorem strings_text_append (l : Line) (r : List Char) :
    strings .outside (l.text ++ r) = l.caption?.toList ++ strings .outside r := by
  cases l with
  | node i b =>
    have hfront : '"' ∉ [' ', ' ', 'n'] ++ (Nat.toDigits 10 i ++ openText) := by
      simp [openText, quote_notMem_toDigits]
    have hstyle : '"' ∉ styleText b.retained := by
      cases b.retained <;> simp [styleText]
    have htext : (Line.node i b).text ++ r = [' ', ' ', 'n'] ++ (Nat.toDigits 10 i ++ openText) ++
        '"' :: (captionText i b ++ '"' :: (styleText b.retained ++ r)) := by
      simp [text, number, body]
    calc strings .outside ((Line.node i b).text ++ r)
        = strings (.inside []) (captionText i b ++ '"' :: (styleText b.retained ++ r)) := by
          rw [htext, strings_outside_append hfront]
          rfl
      _ = captionText i b :: strings .outside (styleText b.retained ++ r) := by
          rw [within_captionText]
          rfl
      _ = captionText i b :: strings .outside r := by rw [strings_outside_append hstyle]
  | child i c =>
    exact strings_outside_append (by simp [text, number, body, arrowText, quote_notMem_toDigits])
  | next i j =>
    exact strings_outside_append (by simp [text, number, body, arrowText, quote_notMem_toDigits])

theorem strings_flatMap_text (ls : List Line) (r : List Char) :
    strings .outside (ls.flatMap text ++ r) = ls.filterMap caption? ++ strings .outside r := by
  induction ls with
  | nil => rfl
  | cons l ls ih =>
    rw [List.flatMap_cons, List.append_assoc, strings_text_append, ih, List.filterMap_cons]
    cases l <;> rfl

end Line

end Timbre.Memory.Dot
