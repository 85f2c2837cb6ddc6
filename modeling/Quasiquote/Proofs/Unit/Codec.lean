import Quasiquote.Proofs.Json.Bytes
import Quasiquote.Proofs.Json.RoundTrip
import Quasiquote.Proofs.Macro.Descriptor
import Quasiquote.Proofs.Node.Parts
import Quasiquote.Unit.Image

namespace Quasiquote

/-!
# Unit files — what is stored comes back

A unit is written as JSON of many levels and read by a reader that enters only so many.
Everything in a unit comes back as it was, as long as its numbers are numbers of the language
and the reader may go deep enough.  What the reader accepts carries the checksum of what it
holds.

* `Json.depth` — how many levels a value has;
* `Node.Storable`, `UnitImage.Storable` — whether the numbers in a tree can be stored;
* `Image.readNode_ofNode`, `Image.readImage_ofImage` — trees and images come back;
* `Artifact.readBytes`, `Artifact.decodeBytes` — what the bytes of a file are read as;
* `Artifact.codec_faithful` — sealed images come back, and only sealed images are accepted.
-/

namespace Json

/-! ### Levels of a value -/

mutual

/-- How many arrays and objects of a value stand inside each other. -/
def depth : Json → Nat
  | .arr items => depthAll items + 1
  | .obj fields => depthFields fields + 1
  | _ => 0

/-- The greatest depth of several values. -/
def depthAll : List Json → Nat
  | [] => 0
  | v :: vs => max (depth v) (depthAll vs)

/-- The greatest depth of the values of several fields. -/
def depthFields : List (String × Json) → Nat
  | [] => 0
  | (_, v) :: fs => max (depth v) (depthFields fs)

end

theorem depthAll_le_iff {vs : List Json} {d : Nat} : depthAll vs ≤ d ↔ ∀ v ∈ vs, v.depth ≤ d := by
  induction vs with
  | nil => simp [depthAll]
  | cons v vs ih => rw [depthAll, Nat.max_le, ih, List.forall_mem_cons]

/-- An object is entered if a level is left. -/
theorem exists_of_depth_obj {fs : List (String × Json)} {d : Nat} (h : (obj fs).depth ≤ d) :
    ∃ e, d = e + 1 ∧ depthFields fs ≤ e := by
  rw [depth] at h
  exact ⟨d - 1, by omega, by omega⟩

/-- An array is entered if a level is left. -/
theorem exists_of_depth_arr {vs : List Json} {d : Nat} (h : (arr vs).depth ≤ d) :
    ∃ e, d = e + 1 ∧ depthAll vs ≤ e := by
  rw [depth] at h
  exact ⟨d - 1, by omega, by omega⟩

/-! ### Atoms that come back -/

/-- Whether a float is read from its text as it was. -/
def ReadsBack (x : Float) : Prop := parse (Json.float x).pretty = some (.float x)

theorem reread_float {x : Float} (h : ReadsBack x) : (Json.float x).reread = .float x := by
  rw [ReadsBack, parse_pretty] at h
  exact Option.some.inj h

theorem reread_word {i : Int} (h : Word.fits i = true) : (Json.int i).reread = .int i := by
  obtain ⟨hlow, hhigh⟩ := Word.fits_iff.1 h
  refine reread_int hlow ?_
  simp only [Word.bound, Word.count] at *
  omega

theorem reread_offset {i : Nat} (h : i < Word.count) : (Json.int i).reread = .int i := by
  refine reread_int ?_ (Int.ofNat_lt.2 h)
  simp only [Word.bound]
  omega

theorem asWord_int {i : Int} (h : Word.fits i = true) : asWord (.int i) = some i := by
  rw [asWord, Word.exact, if_pos h]

theorem asOffset_int {i : Nat} (h : i < Word.count) : asOffset (.int i) = some i := by
  have hi : (0 ≤ (i : Int) && (i : Int) < Word.count) = true := by
    rw [Bool.and_eq_true, decide_eq_true_eq, decide_eq_true_eq]
    exact ⟨Int.natCast_nonneg i, Int.ofNat_lt.2 h⟩
  rw [asOffset, if_pos hi, Int.toNat_natCast]

section Reread

variable (s : String) (b : Bool) (vs : List Json) (fs : List (String × Json))

@[simp] theorem reread_null : Json.null.reread = .null := by rw [reread]

@[simp] theorem reread_bool : (Json.bool b).reread = .bool b := by rw [reread]

@[simp] theorem reread_str : (Json.str s).reread = .str s := by rw [reread]

@[simp] theorem reread_arr : (Json.arr vs).reread = .arr (rereadAll vs) := by rw [reread]

@[simp] theorem reread_obj : (Json.obj fs).reread = .obj (rereadFields fs) := by rw [reread]

@[simp] theorem reread_ofOption (s : Option String) : (ofOption s).reread = ofOption s := by
  cases s <;> simp [ofOption]

@[simp] theorem rereadAll_strings (xs : List String) :
    rereadAll (xs.map .str) = xs.map .str := by
  simp [rereadAll_eq_map, Function.comp_def]

end Reread

end Json

/-! ### What can be stored -/

/-- Whether both ends of a span are offsets. -/
def Span.Fits (s : Span) : Prop := s.start < Word.count ∧ s.stop < Word.count

/-- Whether the numbers in a form are those that a file can hold. -/
def Form.Storable : Form → Prop
  | .int i => Word.fits i = true
  | .float x => Json.ReadsBack x
  | .macroDef _ _ _ id => ∀ i ∈ id, i < Word.count
  | _ => True

/-- Whether all numbers in a tree are those that a file can hold. -/
def Node.Storable (n : Node) : Prop := n.Every fun m => m.span.Fits ∧ m.form.Storable

/-- Whether all numbers in a class are those that a file can hold. -/
def UnitImage.Storable (u : UnitImage) : Prop := ∀ m ∈ u.methods, m.body.Storable

namespace Image

open Json

variable {s : Span}

/-! ### Texts hold what was written

A value is read from its text as it was if all its numbers are. -/

section Reread

attribute [local simp] ofNode ofForm ofNodes ofOptional ofParams ofArgs record tagged
  rereadAll rereadFields

theorem reread_ofSpan (h : s.Fits) : (ofSpan s).reread = ofSpan s := by
  simp [ofSpan, reread_offset h.1, reread_offset h.2]

mutual

theorem reread_ofNode : ∀ n : Node, n.Storable → (ofNode n).reread = ofNode n
  | ⟨s, f⟩, h => by
    have hs : s.Fits := h.self.1
    simp [reread_ofSpan hs, reread_ofForm s f h]

theorem reread_ofForm (s : Span) : ∀ f : Form, (⟨s, f⟩ : Node).Storable →
    (ofForm f).reread = ofForm f
  | .int i, h => by simp [reread_word h.self.2]
  | .float x, h => by simp [reread_float h.self.2]
  | .str _, _ | .bool _, _ | .nil, _ | .self, _ | .ident _, _ | .field _, _ | .constant _, _
  | .blockArgument _ _, _ | .noop, _ | .error _, _ => by simp
  | .assign _ v, h => by simp [reread_ofNode v (Node.every_assign.1 h).2]
  | .fieldAssign _ v, h => by simp [reread_ofNode v (Node.every_fieldAssign.1 h).2]
  | .call t _ args b, h => by
    obtain ⟨-, ht, hargs, hb⟩ := Node.every_call.1 h
    simp [reread_ofNode t ht, rereadAll_ofNodes args hargs, reread_ofOptional b hb]
  | .invoke _ args b, h => by
    obtain ⟨-, hargs, hb⟩ := Node.every_invoke.1 h
    simp [rereadAll_ofNodes args hargs, reread_ofOptional b hb]
  | .cond t y n, h => by
    obtain ⟨-, ht, hy, hn⟩ := Node.every_cond.1 h
    simp [reread_ofNode t ht, reread_ofNode y hy, reread_ofOptional n hn]
  | .body items, h => by simp [rereadAll_ofNodes items (Node.every_body.1 h).2]
  | .block _ b _, h => by simp [reread_ofNode b (Node.every_block.1 h).2]
  | .classDef _ _ b, h => by simp [reread_ofNode b (Node.every_classDef.1 h).2]
  | .methodDef _ ps _ b, h => by
    obtain ⟨-, hps, hb⟩ := Node.every_methodDef.1 h
    simp [rereadAll_ofParams ps hps, reread_ofNode b hb]
  | .macroDef _ args b none, h => by
    obtain ⟨-, hargs, hb⟩ := Node.every_macroDef.1 h
    simp [rereadAll_ofArgs args hargs, reread_ofNode b hb]
  | .macroDef _ args b (some i), h => by
    obtain ⟨⟨-, hid⟩, hargs, hb⟩ := Node.every_macroDef.1 h
    simp [rereadAll_ofArgs args hargs, reread_ofNode b hb, reread_offset (hid i rfl)]
  | .quote b, h => by simp [reread_ofNode b (Node.every_quote.1 h).2]
  | .unquote v, h => by simp [reread_ofNode v (Node.every_unquote.1 h).2]

theorem rereadAll_ofNodes : ∀ ns : List Node, (∀ n ∈ ns, n.Storable) →
    rereadAll (ofNodes ns) = ofNodes ns
  | [], _ => by simp
  | n :: ns, h => by
    obtain ⟨hn, hns⟩ := List.forall_mem_cons.1 h
    simp [reread_ofNode n hn, rereadAll_ofNodes ns hns]

theorem reread_ofOptional : ∀ n : Option Node, (∀ m ∈ n, m.Storable) →
    (ofOptional n).reread = ofOptional n
  | none, _ => by simp
  | some n, h => by simp [reread_ofNode n (h n rfl)]

theorem rereadAll_ofParams : ∀ ps : List Parameter, (∀ p ∈ ps, ∀ d ∈ p.default, d.Storable) →
    rereadAll (ofParams ps) = ofParams ps
  | [], _ => by simp
  | ⟨_, _, d, _⟩ :: ps, h => by
    obtain ⟨hd, hps⟩ := List.forall_mem_cons.1 h
    simp [reread_ofOptional d hd, rereadAll_ofParams ps hps]

theorem rereadAll_ofArgs : ∀ args : List Argument, (∀ a ∈ args, ∀ d ∈ a.default, d.Storable) →
    rereadAll (ofArgs args) = ofArgs args
  | [], _ => by simp
  | .required _ :: args, h | .block _ _ :: args, h => by
    simp [rereadAll_ofArgs args (List.forall_mem_cons.1 h).2]
  | .optional _ d :: args, h => by
    obtain ⟨hd, hargs⟩ := List.forall_mem_cons.1 h
    simp [reread_ofNode d (hd d rfl), rereadAll_ofArgs args hargs]

end

theorem reread_ofImage {u : UnitImage} (h : u.Storable) : (ofImage u).reread = ofImage u := by
  have hmethods : rereadAll (u.methods.map ofMethod) = u.methods.map ofMethod := by
    rw [rereadAll_eq_map, List.map_map]
    refine List.map_congr_left fun m hm => ?_
    simp [ofMethod, reread_ofNode m.body (h m hm)]
  simp [ofImage, hmethods]

end Reread

/-! ### Readers find what was written

A reader that may enter as many levels as a value has reads what the value was made from. -/

section Read

/-- A record of a choice is entered if two levels are left. -/
theorem exists_of_depth_record {name : String} {fs : List (String × Json)} {d : Nat}
    (h : (record name fs).depth ≤ d) : ∃ e, d = e + 2 ∧ depthFields fs ≤ e := by
  simp only [record, tagged, depth, depthFields, Nat.max_zero] at h
  exact ⟨d - 2, by omega, by omega⟩

/-- What belongs to a choice is entered if a level is left. -/
theorem exists_of_depth_tagged {name : String} {v : Json} {d : Nat}
    (h : (tagged name v).depth ≤ d) : ∃ e, d = e + 1 ∧ v.depth ≤ e := by
  simp only [tagged, depth, depthFields, Nat.max_zero] at h
  exact ⟨d - 1, by omega, by omega⟩

theorem readStrings_ofStrings {d : Nat} (xs : List String)
    (hd : (Json.arr (xs.map .str)).depth ≤ d) : readStrings d (.arr (xs.map .str)) = some xs := by
  obtain ⟨d, rfl, -⟩ := exists_of_depth_arr hd
  have hread : ∀ x : String, True → Json.asString (.str x) = some x := fun _ _ => rfl
  exact Descriptor.mapM_map hread fun _ _ => trivial

theorem readSpan_ofSpan (h : s.Fits) {d : Nat} (hd : (ofSpan s).depth ≤ d) :
    readSpan d (ofSpan s) = some s := by
  obtain ⟨d, rfl, -⟩ := exists_of_depth_obj hd
  have hparts (start stop : Json) : readSpan (d + 1) (.obj [("start", start), ("end", stop)]) =
      do return ⟨← asOffset start, ← asOffset stop⟩ := rfl
  rw [ofSpan, hparts, asOffset_int h.1, asOffset_int h.2]
  rfl

theorem readOption_offset {i : Nat} (h : i < Word.count) :
    readOption asOffset (.int i) = some (some i) := by
  rw [readOption, asOffset_int h]
  · rfl
  · nofun

theorem readOptionalString_ofOption (s : Option String) :
    readOptionalString (.present (Json.ofOption s)) = some s := by
  cases s <;> rfl

theorem readOption_number : ∀ {id : Option Nat}, (∀ i ∈ id, i < Word.count) →
    readOption asOffset (match id with | some i => .int i | none => .null) = some id
  | none, _ => rfl
  | some i, h => readOption_offset (h i rfl)

theorem readSpec_record {d : Nat} {name : String} {args : List Argument} {body : Node}
    {args' body' : Json} (hargs : readArgs d args' = some args)
    (hbody : readNode d body' = some body) :
    readSpec (d + 1) (.obj [("name", .str name), ("arguments", args'), ("body", body')]) =
      some ⟨name, args, body⟩ := by
  show (do return ⟨name, ← readArgs d args', ← readNode d body'⟩ : Option MacroSpec) = _
  rw [hargs, hbody]
  rfl

theorem readForm_macroDef {d : Nat} {m : MacroSpec} {id : Option Nat} {spec id' : Json}
    (hspec : readSpec d spec = some m) (hid : readOption asOffset id' = some id) :
    readForm (d + 2) (record "MacroDefinition" [("spec", spec), ("id", id')]) =
      some (.macroDef m.name m.args m.body id) := by
  show (do
    let m ← readSpec d spec
    return .macroDef m.name m.args m.body (← readOption asOffset id') : Option Form) = _
  rw [hspec, hid]
  rfl

mutual

theorem readNode_ofNode : ∀ (n : Node) (d : Nat), n.Storable → (ofNode n).depth ≤ d →
    readNode d (ofNode n) = some n
  | ⟨s, f⟩, d, h, hd => by
    have hs : s.Fits := h.self.1
    obtain ⟨d, rfl, he⟩ := exists_of_depth_obj hd
    simp only [depthFields, Nat.max_le, Nat.zero_le, and_true] at he
    show (do let f ← readForm d (ofForm f); return ⟨← readSpan d (ofSpan s), f⟩ : Option Node) = _
    rw [readForm_ofForm s f d h he.1, readSpan_ofSpan hs he.2]
    rfl

theorem readForm_ofForm (s : Span) : ∀ (f : Form) (d : Nat), (⟨s, f⟩ : Node).Storable →
    (ofForm f).depth ≤ d → readForm d (ofForm f) = some f
  | .nil, d, _, _ | .self, d, _, _ | .noop, d, _, _ => by
    cases d <;> rfl
  | .int i, d, h, hd => by
    obtain ⟨d, rfl, -⟩ := exists_of_depth_tagged hd
    show (do return .int (← asWord (.int i)) : Option Form) = _
    rw [asWord_int h.self.2]
    rfl
  | .float _, d, _, hd | .str _, d, _, hd | .bool _, d, _, hd | .ident _, d, _, hd
  | .field _, d, _, hd | .constant _, d, _, hd | .error _, d, _, hd => by
    obtain ⟨d, rfl, -⟩ := exists_of_depth_tagged hd
    rfl
  | .blockArgument _ _, d, _, hd => by
    obtain ⟨d, rfl, -⟩ := exists_of_depth_record hd
    rfl
  | .assign name v, d, h, hd => by
    obtain ⟨d, rfl, he⟩ := exists_of_depth_record hd
    simp only [depthFields, Nat.max_le, Nat.zero_le, and_true] at he
    show (do return .assign name (← readNode d (ofNode v)) : Option Form) = _
    rw [readNode_ofNode v d (Node.every_assign.1 h).2 he.2]
    rfl
  | .fieldAssign name v, d, h, hd => by
    obtain ⟨d, rfl, he⟩ := exists_of_depth_record hd
    simp only [depthFields, Nat.max_le, Nat.zero_le, and_true] at he
    show (do return .fieldAssign name (← readNode d (ofNode v)) : Option Form) = _
    rw [readNode_ofNode v d (Node.every_fieldAssign.1 h).2 he.2]
    rfl
  | .call t name args b, d, h, hd => by
    obtain ⟨-, ht, hargs, hb⟩ := Node.every_call.1 h
    obtain ⟨d, rfl, he⟩ := exists_of_depth_record hd
    simp only [depthFields, Nat.max_le, Nat.zero_le, and_true] at he
    show (do
      return .call (← readNode d (ofNode t)) name (← readNodes d (.arr (ofNodes args)))
        (← readOption (readNode d) (ofOptional b)) : Option Form) = _
    rw [readNode_ofNode t d ht he.1, readNodes_ofNodes args d hargs he.2.2.1,
      readOption_ofOptional b d hb he.2.2.2]
    rfl
  | .invoke name args b, d, h, hd => by
    obtain ⟨-, hargs, hb⟩ := Node.every_invoke.1 h
    obtain ⟨d, rfl, he⟩ := exists_of_depth_record hd
    simp only [depthFields, Nat.max_le, Nat.zero_le, and_true] at he
    show (do
      return .invoke name (← readNodes d (.arr (ofNodes args)))
        (← readOption (readNode d) (ofOptional b)) : Option Form) = _
    rw [readNodes_ofNodes args d hargs he.2.1, readOption_ofOptional b d hb he.2.2]
    rfl
  | .cond t y n, d, h, hd => by
    obtain ⟨-, ht, hy, hn⟩ := Node.every_cond.1 h
    obtain ⟨d, rfl, he⟩ := exists_of_depth_record hd
    simp only [depthFields, Nat.max_le, Nat.zero_le, and_true] at he
    show (do
      return .cond (← readNode d (ofNode t)) (← readNode d (ofNode y))
        (← readOption (readNode d) (ofOptional n)) : Option Form) = _
    rw [readNode_ofNode t d ht he.1, readNode_ofNode y d hy he.2.1,
      readOption_ofOptional n d hn he.2.2]
    rfl
  | .body items, d, h, hd => by
    obtain ⟨d, rfl, he⟩ := exists_of_depth_tagged hd
    show (do return .body (← readNodes d (.arr (ofNodes items))) : Option Form) = _
    rw [readNodes_ofNodes items d (Node.every_body.1 h).2 he]
    rfl
  | .block params b brace, d, h, hd => by
    obtain ⟨d, rfl, he⟩ := exists_of_depth_record hd
    simp only [depthFields, Nat.max_le, Nat.zero_le, and_true] at he
    show (do
      return .block (← readStrings d (.arr (params.map .str))) (← readNode d (ofNode b)) brace :
        Option Form) = _
    rw [readStrings_ofStrings params he.1, readNode_ofNode b d (Node.every_block.1 h).2 he.2.1]
    rfl
  | .classDef name superclass b, d, h, hd => by
    obtain ⟨d, rfl, he⟩ := exists_of_depth_record hd
    simp only [depthFields, Nat.max_le, Nat.zero_le, and_true] at he
    show (do
      return .classDef name (← readOptionalString (.present (Json.ofOption superclass)))
        (← readNode d (ofNode b)) : Option Form) = _
    rw [readOptionalString_ofOption, readNode_ofNode b d (Node.every_classDef.1 h).2 he.2.2]
    rfl
  | .methodDef name ps returns b, d, h, hd => by
    obtain ⟨-, hps, hb⟩ := Node.every_methodDef.1 h
    obtain ⟨d, rfl, he⟩ := exists_of_depth_record hd
    simp only [depthFields, Nat.max_le, Nat.zero_le, and_true] at he
    show (do
      return .methodDef name (← readParams d (.arr (ofParams ps)))
        (← readOptionalString (.present (Json.ofOption returns))) (← readNode d (ofNode b)) :
        Option Form) = _
    rw [readParams_ofParams ps d hps he.2.1, readOptionalString_ofOption,
      readNode_ofNode b d hb he.2.2.2]
    rfl
  | .macroDef name args b id, d, h, hd => by
    obtain ⟨⟨-, hid⟩, hargs, hb⟩ := Node.every_macroDef.1 h
    obtain ⟨d, rfl, he⟩ := exists_of_depth_record hd
    obtain ⟨d, rfl, hspec⟩ := exists_of_depth_obj (Nat.max_le.1 he).1
    simp only [depthFields, Nat.max_le, Nat.zero_le, and_true] at hspec
    exact readForm_macroDef (readSpec_record (readArgs_ofArgs args d hargs hspec.2.1)
      (readNode_ofNode b d hb hspec.2.2)) (readOption_number hid)
  | .quote b, d, h, hd => by
    obtain ⟨d, rfl, he⟩ := exists_of_depth_tagged hd
    show (do return .quote (← readNode d (ofNode b)) : Option Form) = _
    rw [readNode_ofNode b d (Node.every_quote.1 h).2 he]
    rfl
  | .unquote v, d, h, hd => by
    obtain ⟨d, rfl, he⟩ := exists_of_depth_tagged hd
    show (do return .unquote (← readNode d (ofNode v)) : Option Form) = _
    rw [readNode_ofNode v d (Node.every_unquote.1 h).2 he]
    rfl

theorem readNodes_ofNodes : ∀ (ns : List Node) (d : Nat), (∀ n ∈ ns, n.Storable) →
    (Json.arr (ofNodes ns)).depth ≤ d → readNodes d (.arr (ofNodes ns)) = some ns
  | [], d, _, hd => by
    obtain ⟨d, rfl, -⟩ := exists_of_depth_arr hd
    rfl
  | n :: ns, d, h, hd => by
    obtain ⟨hn, hns⟩ := List.forall_mem_cons.1 h
    obtain ⟨d, rfl, he⟩ := exists_of_depth_arr hd
    obtain ⟨hhead, htail⟩ := Nat.max_le.1 he
    have hrest : (ofNodes ns).mapM (readNode d) = some ns :=
      readNodes_ofNodes ns (d + 1) hns (Nat.succ_le_succ htail)
    show (ofNode n :: ofNodes ns).mapM (readNode d) = _
    rw [List.mapM_cons, readNode_ofNode n d hn hhead, hrest]
    rfl

theorem readOption_ofOptional : ∀ (n : Option Node) (d : Nat), (∀ m ∈ n, m.Storable) →
    (ofOptional n).depth ≤ d → readOption (readNode d) (ofOptional n) = some n
  | none, _, _, _ => rfl
  | some ⟨s, f⟩, d, h, hd => by
    show (readNode d (ofNode ⟨s, f⟩)).map some = _
    rw [readNode_ofNode ⟨s, f⟩ d (h _ rfl) hd]
    rfl

theorem readParams_ofParams : ∀ (ps : List Parameter) (d : Nat),
    (∀ p ∈ ps, ∀ d ∈ p.default, d.Storable) → (Json.arr (ofParams ps)).depth ≤ d →
    readParams d (.arr (ofParams ps)) = some ps
  | [], d, _, hd => by
    obtain ⟨d, rfl, -⟩ := exists_of_depth_arr hd
    rfl
  | ⟨name, type, default, block⟩ :: ps, d, h, hd => by
    obtain ⟨hdefault, hps⟩ := List.forall_mem_cons.1 h
    obtain ⟨d, rfl, he⟩ := exists_of_depth_arr hd
    obtain ⟨hhead, htail⟩ := Nat.max_le.1 he
    obtain ⟨e, rfl, hfields⟩ := exists_of_depth_obj hhead
    simp only [depthFields, Nat.max_le, Nat.zero_le, and_true] at hfields
    have hread : readParam (e + 1) (.obj [("name", .str name), ("type_name", Json.ofOption type),
        ("default", ofOptional default), ("block", .bool block)]) =
        some ⟨name, type, default, block⟩ := by
      show (do
        return ⟨name, ← readOptionalString (.present (Json.ofOption type)),
          ← readOption (readNode e) (ofOptional default), block⟩ : Option Parameter) = _
      rw [readOptionalString_ofOption, readOption_ofOptional default e hdefault hfields.2.2.1]
      rfl
    have hrest : (ofParams ps).mapM (readParam (e + 1)) = some ps :=
      readParams_ofParams ps (e + 2) hps (Nat.succ_le_succ htail)
    show (_ :: ofParams ps).mapM (readParam (e + 1)) = _
    rw [List.mapM_cons, hread, hrest]
    rfl

theorem readArgs_ofArgs : ∀ (args : List Argument) (d : Nat),
    (∀ a ∈ args, ∀ d ∈ a.default, d.Storable) → (Json.arr (ofArgs args)).depth ≤ d →
    readArgs d (.arr (ofArgs args)) = some args
  | [], d, _, hd => by
    obtain ⟨d, rfl, -⟩ := exists_of_depth_arr hd
    rfl
  | .required name :: args, d, h, hd => by
    obtain ⟨-, hargs⟩ := List.forall_mem_cons.1 h
    obtain ⟨d, rfl, he⟩ := exists_of_depth_arr hd
    obtain ⟨hhead, htail⟩ := Nat.max_le.1 he
    obtain ⟨e, rfl, -⟩ := exists_of_depth_tagged hhead
    have hread : readArg (e + 1) (tagged "Required" (.str name)) = some (.required name) := rfl
    have hrest : (ofArgs args).mapM (readArg (e + 1)) = some args :=
      readArgs_ofArgs args (e + 2) hargs (Nat.succ_le_succ htail)
    show (tagged "Required" (.str name) :: ofArgs args).mapM (readArg (e + 1)) = _
    rw [List.mapM_cons, hread, hrest]
    rfl
  | .optional name n :: args, d, h, hd => by
    obtain ⟨hn, hargs⟩ := List.forall_mem_cons.1 h
    obtain ⟨d, rfl, he⟩ := exists_of_depth_arr hd
    obtain ⟨hhead, htail⟩ := Nat.max_le.1 he
    obtain ⟨e, rfl, hpair⟩ := exists_of_depth_tagged hhead
    obtain ⟨e, rfl, hparts⟩ := exists_of_depth_arr hpair
    simp only [depthAll, Nat.max_le, Nat.zero_le, and_true] at hparts
    have hread : readArg (e + 2) (tagged "Optional" (.arr [.str name, ofNode n])) =
        some (.optional name n) := by
      show (do return .optional name (← readNode e (ofNode n)) : Option Argument) = _
      rw [readNode_ofNode n e (hn n rfl) hparts.2]
      rfl
    have hrest : (ofArgs args).mapM (readArg (e + 2)) = some args :=
      readArgs_ofArgs args (e + 3) hargs (Nat.succ_le_succ htail)
    show (tagged "Optional" (.arr [.str name, ofNode n]) :: ofArgs args).mapM (readArg (e + 2)) = _
    rw [List.mapM_cons, hread, hrest]
    rfl
  | .block name opt :: args, d, h, hd => by
    obtain ⟨-, hargs⟩ := List.forall_mem_cons.1 h
    obtain ⟨d, rfl, he⟩ := exists_of_depth_arr hd
    obtain ⟨hhead, htail⟩ := Nat.max_le.1 he
    obtain ⟨e, rfl, hpair⟩ := exists_of_depth_tagged hhead
    obtain ⟨e, rfl, -⟩ := exists_of_depth_arr hpair
    have hread : readArg (e + 2) (tagged "Block" (.arr [.str name, .bool opt])) =
        some (.block name opt) := rfl
    have hrest : (ofArgs args).mapM (readArg (e + 2)) = some args :=
      readArgs_ofArgs args (e + 3) hargs (Nat.succ_le_succ htail)
    show (tagged "Block" (.arr [.str name, .bool opt]) :: ofArgs args).mapM (readArg (e + 2)) = _
    rw [List.mapM_cons, hread, hrest]
    rfl

end

theorem readMethod_ofMethod {m : MethodImage} (h : m.body.Storable) {d : Nat}
    (hd : (ofMethod m).depth ≤ d) : readMethod d (ofMethod m) = some m := by
  obtain ⟨d, rfl, he⟩ := exists_of_depth_obj hd
  simp only [depthFields, Nat.max_le, Nat.zero_le, and_true] at he
  show (do
    return ⟨m.name, ← readStrings d (.arr (m.params.map .str)), ← readNode d (ofNode m.body)⟩ :
      Option MethodImage) = _
  rw [readStrings_ofStrings m.params he.2.1, readNode_ofNode m.body d h he.2.2]
  rfl

/-- Images come back. -/
theorem readImage_ofImage {u : UnitImage} (h : u.Storable) {d : Nat}
    (hd : (ofImage u).depth ≤ d) : readImage d (ofImage u) = some u := by
  obtain ⟨d, rfl, he⟩ := exists_of_depth_obj hd
  simp only [depthFields, Nat.max_le, Nat.zero_le, and_true] at he
  obtain ⟨d, rfl, hmethods⟩ := exists_of_depth_arr he.2.2
  rw [depthAll_le_iff, List.forall_mem_map] at hmethods
  show (do
    return ⟨u.name, ← readOptionalString (.present (Json.ofOption u.superclass)),
      ← (u.methods.map ofMethod).mapM (readMethod d)⟩ : Option UnitImage) = _
  rw [readOptionalString_ofOption,
    Descriptor.mapM_map (fun m hm => readMethod_ofMethod (h m hm) (hmethods m hm)) fun _ => id]
  rfl

end Read

end Image

namespace Artifact

/-! ### Bytes of files -/

/-- Reads the bytes of a file without looking at its checksum. -/
def readBytes (bs : List UInt8) : Except ArtifactError Artifact := read (Json.ofBytes bs)

/-- Reads and verifies the bytes of a file. -/
def decodeBytes (bs : List UInt8) : Except ArtifactError Artifact := decode (Json.ofBytes bs)

/-- An artifact in JSON. -/
def toJson (a : Artifact) : Json :=
  .obj [("format", .str a.format), ("checksum", .str a.checksum), ("image", Image.ofImage a.image)]

/-- Artifacts that can be stored are read as they were, whatever their checksum is. -/
theorem readBytes_encode {a : Artifact} (h : a.image.Storable) (hd : a.toJson.depth ≤ nesting) :
    readBytes (Utf8.bytes a.encode.toList) = .ok a := by
  have hparse : Json.parse a.encode = some a.toJson := by
    show Json.parse a.toJson.pretty = _
    rw [Json.parse_pretty]
    simp [toJson, Json.rereadFields, Image.reread_ofImage h]
  have himage : (Image.ofImage a.image).depth ≤ 126 := by
    simp only [toJson, Json.depth, Json.depthFields, nesting, Nat.max_zero, Nat.zero_max] at hd
    omega
  have hread : ofJson a.toJson = some a := by
    show (do
      return ⟨a.format, a.checksum, ← Image.readImage 126 (Image.ofImage a.image)⟩ :
        Option Artifact) = _
    rw [Image.readImage_ofImage h himage]
    rfl
  rw [readBytes, Json.ofBytes_bytes, read, hparse, Option.bind_some, hread]

/-- What is accepted was read, is of the current format and has the checksum of its image. -/
theorem decodeBytes_eq_ok_iff {bs : List UInt8} {a : Artifact} :
    decodeBytes bs = .ok a ↔
      readBytes bs = .ok a ∧ a.format = currentFormat ∧ digest a.image = a.checksum := by
  rw [← verify_eq_ok_iff, decodeBytes, decode, readBytes]
  cases read (Json.ofBytes bs) with
  | error e => exact ⟨nofun, fun h => nomatch h.1⟩
  | ok b =>
    show (do b.verify; return b : Except ArtifactError Artifact) = .ok a ↔ _
    cases hb : b.verify with
    | error e =>
      refine ⟨nofun, fun ⟨h, ha⟩ => ?_⟩
      cases h
      rw [hb] at ha
      cases ha
    | ok =>
      refine ⟨fun h => ?_, And.left⟩
      cases h
      exact ⟨rfl, hb⟩

/-- Units and their files.  A sealed image that can be stored comes back identical; whatever
    bytes are accepted, they are of the current format and hold the checksum of their image; and
    an image that was put in the place of another one under the checksum of the latter is
    refused, unless both have the same digest. -/
theorem codec_faithful :
    (∀ u : UnitImage, u.Storable → (sealed u).toJson.depth ≤ nesting →
      decodeBytes (Utf8.bytes (sealed u).encode.toList) = .ok (sealed u)) ∧
    (∀ (bs : List UInt8) (a : Artifact), decodeBytes bs = .ok a →
      a.format = currentFormat ∧ a.checksum = digest a.image) ∧
    (∀ (bs : List UInt8) (a : Artifact) (u : UnitImage), readBytes bs = .ok a →
      a.checksum = digest u → digest a.image ≠ digest u → ∃ e, decodeBytes bs = .error e) := by
  refine ⟨fun u h hd => ?_, fun bs a ha => ?_, fun bs a u ha hu hne => ?_⟩
  · exact decodeBytes_eq_ok_iff.2 ⟨readBytes_encode h hd, rfl, rfl⟩
  · obtain ⟨-, hformat, hsum⟩ := decodeBytes_eq_ok_iff.1 ha
    exact ⟨hformat, hsum.symm⟩
  · cases hb : decodeBytes bs with
    | error e => exact ⟨e, rfl⟩
    | ok b =>
      obtain ⟨hread, -, hsum⟩ := decodeBytes_eq_ok_iff.1 hb
      rw [ha] at hread
      cases hread
      exact absurd (hsum.trans hu) hne

/-- A class with a method that defines a macro, and with text of more than one byte to a
    character. -/
def greeter : UnitImage where
  name := "kiln.macros.A$Extension1"
  superclass := some "A"
  methods := [⟨"_expand", ["x"], ⟨⟨0, 60⟩, .body [
    ⟨⟨0, 40⟩, .macroDef "greet" [.required "x", .optional "y" ⟨⟨16, 18⟩, .int (-5)⟩, .block "b" true]
      ⟨⟨24, 36⟩, .quote ⟨⟨26, 34⟩, .call ⟨⟨26, 30⟩, .unquote ⟨⟨27, 29⟩, .ident "x"⟩⟩ "+"
        [⟨⟨31, 34⟩, .str "é
"⟩] none⟩⟩ (some 7)⟩,
    ⟨⟨41, 60⟩, .methodDef "go" [⟨"p", some "Int", some ⟨⟨48, 51⟩, .nil⟩, false⟩] none
      ⟨⟨52, 56⟩, .noop⟩⟩]⟩⟩]

theorem storable_greeter : greeter.Storable := by
  intro m hm
  obtain rfl := List.mem_singleton.1 hm
  simp [Node.Storable, Form.Storable, Span.Fits, Word.fits_iff, Word.bound]
  decide

/-- A class comes back from its file, and a file whose class was renamed is refused. -/
theorem codec_faithful_greeter :
    (greeter.Storable ∧ (sealed greeter).toJson.depth ≤ nesting ∧
      decodeBytes (Utf8.bytes (sealed greeter).encode.toList) = .ok (sealed greeter)) ∧
    ∃ e, decodeBytes (Utf8.bytes
      (encode ⟨currentFormat, digest ⟨"A", none, []⟩, ⟨"B", none, []⟩⟩).toList) = .error e := by
  have hdepth : (sealed greeter).toJson.depth ≤ nesting := by decide
  refine ⟨⟨storable_greeter, hdepth, codec_faithful.1 greeter storable_greeter hdepth⟩, ?_⟩
  refine codec_faithful.2.2 _ _ ⟨"A", none, []⟩ (readBytes_encode (fun _ => nofun) ?_) rfl ?_
  · decide
  · decide +kernel

end Artifact

end Quasiquote
