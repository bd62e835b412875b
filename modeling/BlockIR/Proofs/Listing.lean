import BlockIR.Printer
import BlockIR.Proofs.Violations
import Mathlib.Data.List.Induction

/-!
# The texts of functions

The text of a module is made up of the texts of its functions, in order and with one empty line between them, and
its listing finds each of them again. A function takes nothing else from its module for its text than what the
functions are called that occur in its code.
-/

namespace BlockIR

/-- The functions that are named in the code of a function. -/
def Function.items (f : Function) : List FuncId := f.body.blocks.toList.flatMap Block.items

section Names

variable {m m' : Module}

lemma Operand.text_congr {x : Operand} (h : ∀ g ∈ x.items, m.funcName g = m'.funcName g) :
    x.text m = x.text m' := by
  cases x with
  | read p => rfl
  | const c => rfl
  | func g => rw [text, text, h g List.mem_cons_self]

lemma Operand.calleeText_congr {x : Operand} (h : ∀ g ∈ x.items, m.funcName g = m'.funcName g) :
    x.calleeText m = x.calleeText m' := by
  cases x with
  | read p => rfl
  | const c => rfl
  | func g => exact h g List.mem_cons_self

lemma Rvalue.text_congr {r : Rvalue}
    (h : ∀ g ∈ r.operands.flatMap Operand.items, m.funcName g = m'.funcName g) : r.text m = r.text m' := by
  have hoperand : ∀ x ∈ r.operands, x.text m = x.text m' := fun x hx =>
    Operand.text_congr fun g hg => h g (List.mem_flatMap.2 ⟨x, hx, hg⟩)
  cases r with
  | use x => exact hoperand x List.mem_cons_self
  | binary op x y =>
    rw [text, text, hoperand x List.mem_cons_self, hoperand y (List.mem_cons_of_mem x List.mem_cons_self)]
  | unary op x => rw [text, text, hoperand x List.mem_cons_self]

lemma Action.text_congr {a : Action} (h : ∀ g ∈ a.items, m.funcName g = m'.funcName g) :
    a.text m = a.text m' := by
  cases a with
  | assign p r => rw [text, text, Rvalue.text_congr h]
  | drop k p =>
    cases k with
    | free => rfl
    | deep => rfl

lemma Transfer.text_congr {t : Transfer} (h : ∀ g ∈ t.items, m.funcName g = m'.funcName g) :
    t.text m = t.text m' := by
  have hoperand : ∀ x ∈ t.operands, ∀ g ∈ x.items, m.funcName g = m'.funcName g := fun x hx g hg =>
    h g (List.mem_flatMap.2 ⟨x, hx, hg⟩)
  cases t with
  | branch c k k' => rw [text, text, Operand.text_congr (hoperand c List.mem_cons_self)]
  | call p f xs k =>
    have hargs : xs.map (Operand.text m) = xs.map (Operand.text m') :=
      List.map_congr_left fun x hx => Operand.text_congr (hoperand x (List.mem_cons_of_mem f hx))
    rw [text, text, Operand.calleeText_congr (hoperand f List.mem_cons_self), hargs]
  | ret => rfl
  | goto k => rfl
  | switch p cases targets => rfl
  | diverge => rfl
  | panic k => rfl

lemma Block.text_congr {b : Block} (h : ∀ g ∈ b.items, m.funcName g = m'.funcName g) (name : BlockId) :
    b.text m name = b.text m' name := by
  have hstatements : b.statements.map (fun s => "        " ++ s.action.text m ++ ";\n") =
      b.statements.map fun s => "        " ++ s.action.text m' ++ ";\n" := by
    refine List.map_congr_left fun s hs => ?_
    rw [Action.text_congr fun g hg => h g (List.mem_append_left _ (List.mem_flatMap.2 ⟨s, hs, hg⟩))]
  rw [text, text, hstatements, Transfer.text_congr fun g hg => h g (List.mem_append_right _ hg)]

lemma Function.text_congr {f : Function} (h : ∀ g ∈ f.items, m.funcName g = m'.funcName g) :
    f.text m = f.text m' := by
  have hblocks : f.body.blocks.entries.map (fun e => e.2.text m e.1) =
      f.body.blocks.entries.map fun e => e.2.text m' e.1 := by
    refine List.map_congr_left fun e he => Block.text_congr (fun g hg => h g ?_) e.1
    exact List.mem_flatMap.2 ⟨e.2, Arena.snd_mem_of_mem_entries he, hg⟩
  rw [text, text, hblocks]

end Names

namespace ByteRange

variable {text before t after : String} {r : ByteRange}

/-- The bytes of a part of a text. -/
def ofPart (before t : String) : ByteRange := ⟨before.rawEndPos, (before ++ t).rawEndPos⟩

lemma fits_ofPart (h : text = before ++ t ++ after) : (ofPart before t).Fits text := by
  have hstart : before.rawEndPos.IsValid text :=
    String.Pos.Raw.isValid_iff_exists_append.2 ⟨before, t ++ after, by rw [h, String.append_assoc], rfl⟩
  refine ⟨hstart, String.Pos.Raw.isValid_iff_exists_append.2 ⟨before ++ t, after, h, rfl⟩, ?_⟩
  show before.utf8ByteSize ≤ (before ++ t).utf8ByteSize
  rw [String.utf8ByteSize_append]
  exact Nat.le_add_right _ _

lemma slice?_ofPart (h : text = before ++ t ++ after) : (ofPart before t).slice? text = some t := by
  have hfits := fits_ofPart h
  have hstart : (text.pos _ hfits.1).Splits before (t ++ after) := ⟨by rw [h, String.append_assoc], rfl⟩
  have hstop : (text.pos _ hfits.2.1).Splits (before ++ t) after := ⟨h, rfl⟩
  obtain ⟨hle, hslice⟩ := String.copy_slice_eq_iff_splits.2 ⟨before, after, hstart, hstop⟩
  rw [slice?, dif_pos hfits, String.extract_eq_copy_slice _ _ hle, hslice]

end ByteRange

namespace Listing

variable {l : Listing} {texts : List String} {m : Module}

/-- A listing has these texts: its own text is made up of them, and its spans say where they stand in it. -/
structure Holds (l : Listing) (texts : List String) : Prop where
  text : l.text = String.intercalate "\n" texts
  size : l.spans.size = texts.length
  spans : ∀ (i : Nat) (t : String), texts[i]? = some t →
    ∃ before after, l.text = before ++ t ++ after ∧ l.spans.toList[i]? = some (.ofPart before t)

/-- What parts the next function from the one before it. -/
def gap (l : Listing) : String := if l.spans.isEmpty then "" else "\n"

lemma add_eq (m : Module) (l : Listing) (f : Function) :
    l.add m f = ⟨l.text ++ l.gap ++ f.text m, l.spans.push (.ofPart (l.text ++ l.gap) (f.text m))⟩ := by
  unfold add gap
  split
  · rw [String.append_empty]
    rfl
  · rfl

lemma holds_empty : empty.Holds [] where
  text := rfl
  size := rfl
  spans := nofun

namespace Holds

lemma text_gap (h : l.Holds texts) (t : String) :
    l.text ++ l.gap ++ t = String.intercalate "\n" (texts ++ [t]) := by
  have hsize : l.spans.slots.size = texts.length := h.size
  by_cases hnil : texts = []
  · subst hnil
    have hempty : l.spans.isEmpty = true := decide_eq_true hsize
    rw [gap, if_pos hempty, h.text, String.append_empty]
    exact String.empty_append
  · have hempty : ¬l.spans.isEmpty = true := by
      have hpos := List.length_pos_iff.2 hnil
      rw [Arena.isEmpty, Array.isEmpty, decide_eq_true_eq]
      omega
    rw [gap, if_neg hempty, h.text, String.intercalate_append_of_ne_nil hnil (List.cons_ne_nil _ _),
      String.intercalate_singleton]

lemma add (h : l.Holds texts) (f : Function) : (l.add m f).Holds (texts ++ [f.text m]) := by
  have hlength : l.spans.toList.length = texts.length := (Arena.length_toList _).trans h.size
  rw [add_eq]
  refine ⟨h.text_gap _, ?_, fun i t ht => ?_⟩
  · dsimp only
    rw [← Arena.length_toList, Arena.toList_push, List.length_append, List.length_append, hlength]
    rfl
  · dsimp only
    rw [Arena.toList_push]
    rcases Nat.lt_or_ge i texts.length with hi | hi
    · rw [List.getElem?_append_left hi] at ht
      obtain ⟨before, after, htext, hspan⟩ := h.spans i t ht
      refine ⟨before, after ++ l.gap ++ f.text m, ?_, ?_⟩
      · rw [htext]
        simp only [String.append_assoc]
      · rw [List.getElem?_append_left (hlength ▸ hi), hspan]
    · rw [List.getElem?_append_right hi] at ht
      obtain ⟨hi', rfl⟩ : i = texts.length ∧ f.text m = t := by
        rw [List.getElem?_singleton] at ht
        split_ifs at ht with heq
        exact ⟨by omega, Option.some.inj ht⟩
      refine ⟨l.text ++ l.gap, "", String.append_empty.symm, ?_⟩
      rw [hi', ← hlength, List.getElem?_concat_length]

/-- Every range begins and ends between characters. -/
lemma fits (h : l.Holds texts) {r : ByteRange} (hr : r ∈ l.spans.toList) : r.Fits l.text := by
  obtain ⟨i, hi⟩ := List.getElem?_of_mem hr
  have hlt : i < texts.length := by
    rw [← h.size, ← Arena.length_toList]
    exact (List.getElem?_eq_some_iff.1 hi).1
  obtain ⟨before, after, htext, hspan⟩ := h.spans i _ (List.getElem?_eq_getElem hlt)
  rw [hi] at hspan
  obtain rfl := Option.some.inj hspan
  exact ByteRange.fits_ofPart htext

lemma function?_eq (h : l.Holds texts) (f : FuncId) : l.function? f = texts[Key.toNat f]? := by
  rw [function?, Arena.get?_eq_getElem?_toList]
  cases ht : texts[Key.toNat f]? with
  | none =>
    have hle : l.spans.toList.length ≤ Key.toNat f := by
      rw [Arena.length_toList, h.size]
      exact List.getElem?_eq_none_iff.1 ht
    rw [List.getElem?_eq_none_iff.2 hle, Option.bind_none]
  | some t =>
    obtain ⟨before, after, htext, hspan⟩ := h.spans _ t ht
    rw [hspan, Option.bind_some, ByteRange.slice?_ofPart htext]

end Holds

lemma holds_foldl (fs : List Function) : (fs.foldl (Listing.add m) .empty).Holds (fs.map (Function.text m)) := by
  induction fs using List.reverseRecOn with
  | nil => exact holds_empty
  | append_singleton fs f ih =>
    rw [List.foldl_append, List.foldl_cons, List.foldl_nil, List.map_append, List.map_singleton]
    exact ih.add f

end Listing

namespace Module

variable {m : Module}

lemma holds_listing (m : Module) : m.listing.Holds (m.functions.toList.map (Function.text m)) :=
  Listing.holds_foldl _

lemma text_eq (m : Module) : m.text = String.intercalate "\n" (m.functions.toList.map (Function.text m)) :=
  m.holds_listing.text

lemma function?_listing (m : Module) (f : FuncId) : m.listing.function? f = (m.get? f).map (Function.text m) := by
  rw [m.holds_listing.function?_eq, List.getElem?_map, get?, Arena.get?_eq_getElem?_toList]

/-- The range of every function begins and ends between characters of the text of the module. -/
theorem fits_of_mem_spans {r : ByteRange} (hr : r ∈ m.listing.spans.toList) : r.Fits m.text :=
  m.holds_listing.fits hr

/-- The text of a module consists of texts that its listing has under the keys of its functions, in their order
and with one empty line between each two, and every key has one. The text of a function is the same in every module,
and under every key, as long as the functions that occur in its code are called the same. -/
theorem functions_partition_text (m : Module) :
    (∃ texts : List String, m.text = String.intercalate "\n" texts ∧ texts.length = m.functions.size ∧
        ∀ f, m.listing.function? f = texts[Key.toNat f]?) ∧
      (∀ f, m.listing.spans.contains f = m.functions.contains f) ∧
      ∀ (m' : Module) (f f' : FuncId) (function : Function), m.get? f = some function → m'.get? f' = some function →
        (∀ g ∈ function.items, m.funcName g = m'.funcName g) → m.listing.function? f = m'.listing.function? f' := by
  have hholds := m.holds_listing
  have hlength : (m.functions.toList.map (Function.text m)).length = m.functions.size := by
    rw [List.length_map, Arena.length_toList]
  refine ⟨⟨_, hholds.text, hlength, hholds.function?_eq⟩, fun f => ?_, fun m' f f' function hf hf' hnames => ?_⟩
  · rw [Arena.contains, Arena.contains, hholds.size, hlength]
  · rw [function?_listing, function?_listing, hf, hf', Option.map_some, Option.map_some, Function.text_congr hnames]

/-- A function that does nothing but call another one. -/
def calling (name : String) (callee : FuncId) : Function :=
  ⟨name, [], ⟨0, 0, 0, .ofList [⟨[], ⟨.call .result (.func callee) [] ⟨0⟩, .none⟩⟩]⟩⟩

/-- Two functions that call each other, behind one whose text has a character of several bytes. -/
def callingEachOther : Module where
  name := "functions"
  functions := .ofList [⟨"text", [⟨"note", [("of", "é")]⟩], ⟨0, 0, 0, .ofList [⟨[], ⟨.ret, .none⟩⟩]⟩⟩,
    calling "ping" ⟨2⟩, calling "pong" ⟨1⟩]
  names := .empty

/-- Another body for one of the functions, and one more function, leave the text of the other one as it is. -/
theorem callingEachOther_texts :
    let m := callingEachOther
    let m' := (m.define ⟨2⟩ .undefined).declare "more" []
    let ping := "fn ping() \x7b\n    bb0: \x7b\n        return = call pong() -> bb0;\n    \x7d\n\x7d\n"
    (∃ texts : List String, m.text = String.intercalate "\n" texts ∧ texts.length = 3 ∧ texts[1]? = some ping) ∧
      m'.listing.function? ⟨2⟩ = some "fn pong() \x7b\n\x7d\n" ∧ m'.listing.function? ⟨1⟩ = some ping := by
  intro m m' ping
  have hping : m.listing.function? ⟨1⟩ = some ping := (function?_listing m ⟨1⟩).trans (by decide +kernel)
  have hnames : ∀ g ∈ (calling "ping" ⟨2⟩).items, m.funcName g = m'.funcName g := by decide +kernel
  obtain ⟨⟨texts, htext, hlength, hfunction⟩, -, hsame⟩ := functions_partition_text m
  refine ⟨⟨texts, htext, hlength, (hfunction ⟨1⟩).symm.trans hping⟩, ?_, ?_⟩
  · exact (function?_listing m' ⟨2⟩).trans (by decide +kernel)
  · exact (hsame m' ⟨1⟩ ⟨1⟩ _ rfl rfl hnames).symm.trans hping

end Module

end BlockIR
