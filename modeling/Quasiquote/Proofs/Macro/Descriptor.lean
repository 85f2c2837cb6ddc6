import Quasiquote.Macro.Descriptor
import Quasiquote.Proofs.Json.RoundTrip

namespace Quasiquote

/-!
# Descriptor files read back

The text of a descriptor is read as the same descriptor, as long as each signature in it has a
block in the last place only; if one has not, the text is no descriptor.

* `Signature.decode?_encode` — signatures read back;
* `Descriptor.decode?_encode` — descriptors read back;
* `Descriptor.eq_of_decode?_encode` — no other descriptor is read;
* `Descriptor.encode_inj` — no other descriptor has its text.
-/

namespace Signature

theorem decodeKinds_letters (ps : List ParamKind) :
    decodeKinds (ps.map ParamKind.letter ++ [')', 'N']) = some ps := by
  induction ps with
  | nil => rfl
  | cons p ps ih =>
    rw [List.map_cons, List.cons_append]
    cases p
    all_goals
      rw [decodeKinds]
      · simp [ParamKind.letter, ParamKind.ofLetter?, ih]
      · simp [ParamKind.letter]

/-- A written signature is read as itself, if only its last parameter may be a block. -/
theorem decode?_encode (s : Signature) :
    decode? s.encode = if blockLast s.params then some s else none := by
  rw [decode?, encode, String.toList_ofList, encodeChars, decodeChars?, decodeKinds_letters]

/-- Signatures have texts of their own. -/
theorem encode_inj {s s' : Signature} (h : s.encode = s'.encode) : s = s' := by
  have hchars := congrArg (decodeKinds ∘ List.tail ∘ String.toList) h
  simp only [Function.comp_apply, encode, String.toList_ofList, encodeChars, List.tail_cons,
    decodeKinds_letters] at hchars
  obtain ⟨ps⟩ := s
  obtain ⟨ps'⟩ := s'
  exact congrArg _ (Option.some.inj hchars)

end Signature

namespace Descriptor

/-- Whether only last parameters of macros are blocks. -/
def BlocksLast (d : Descriptor) : Prop :=
  ∀ r ∈ d.macros, Signature.blockLast r.signature.params = true

/-- Records that are read one by one come back together. -/
theorem mapM_map {α : Type} {write : α → Json} {read : Json → Option α} {p : α → Prop}
    (hread : ∀ a, p a → read (write a) = some a) {as : List α} (h : ∀ a ∈ as, p a) :
    (as.map write).mapM read = some as := by
  induction as with
  | nil => rfl
  | cons a as ih =>
    rw [List.map_cons, List.mapM_cons, hread a (h a List.mem_cons_self),
      ih fun b hb => h b (List.mem_cons_of_mem _ hb)]
    rfl

/-- One record that is not read leaves nothing. -/
theorem mapM_map_eq_none {α : Type} {write : α → Json} {read : Json → Option α} {as : List α} {a : α}
    (ha : a ∈ as) (h : read (write a) = none) : (as.map write).mapM read = none := by
  induction as with
  | nil => cases ha
  | cons b as ih =>
    rw [List.map_cons, List.mapM_cons]
    rcases List.mem_cons.1 ha with rfl | ha
    · rw [h]
      rfl
    · rw [ih ha]
      cases read (write b) <;> rfl

/-- The record of a macro in JSON. -/
def ofMacro (r : MacroRecord) : Json :=
  .obj [("name", .str r.name), ("signature", .str r.signature.encode), ("unit", .str r.unit)]

/-- The record of a method in JSON. -/
def ofMethod (m : MethodRecord) : Json :=
  .obj [("name", .str m.name), ("params", .arr (m.params.map .str)), ("returns", .str m.returns)]

theorem readMacro_ofMacro (r : MacroRecord) :
    readMacro (ofMacro r) = if Signature.blockLast r.signature.params then some r else none := by
  simp only [readMacro, ofMacro, Json.slots, Json.slotsOfFields, Json.under]
  simp [Json.Slot.required, Json.asString, Signature.decode?_encode]
  split <;> rfl

theorem readMethod_ofMethod (m : MethodRecord) : readMethod (ofMethod m) = some m := by
  have hparams : (m.params.map Json.str).mapM Json.asString = some m.params :=
    @mapM_map _ Json.str Json.asString (fun _ => True) (fun _ _ => rfl) _ fun _ _ => trivial
  simp only [readMethod, ofMethod, Json.slots, Json.slotsOfFields, Json.under]
  simp [Json.Slot.required, Json.asString, Json.asList, hparams]

/-- What is stored of a descriptor comes back as it was. -/
theorem reread_toJson (d : Descriptor) : d.toJson.reread =
    .obj [("name", .str d.name), ("superclass", Json.ofOption d.superclass),
      ("methods", .arr (d.methods.map ofMethod)), ("macros", .arr (d.macros.map ofMacro))] := by
  have hsuperclass : (Json.ofOption d.superclass).reread = Json.ofOption d.superclass := by
    cases d.superclass <;> simp [Json.ofOption, Json.reread]
  have hmethod (m : MethodRecord) : (ofMethod m).reread = ofMethod m := by
    simp [ofMethod, Json.reread, Json.rereadFields, Json.rereadAll_eq_map, Function.comp_def]
  have hmacro (r : MacroRecord) : (ofMacro r).reread = ofMacro r := by
    simp [ofMacro, Json.reread, Json.rereadFields]
  show (Json.obj [("name", .str d.name), ("superclass", Json.ofOption d.superclass),
      ("methods", .arr (d.methods.map ofMethod)), ("macros", .arr (d.macros.map ofMacro))]).reread = _
  simp [Json.reread, Json.rereadFields, Json.rereadAll_eq_map, Function.comp_def, hsuperclass,
    hmethod, hmacro]

/-- The text of a descriptor is read as the descriptor. -/
theorem decode?_encode {d : Descriptor} (h : d.BlocksLast) : decode? d.encode = some d := by
  have hsuperclass : Json.asOptionalString (Json.ofOption d.superclass) = some d.superclass := by
    cases d.superclass <;> rfl
  have hmethods : (d.methods.map ofMethod).mapM readMethod = some d.methods :=
    @mapM_map _ ofMethod readMethod (fun _ => True) (fun m _ => readMethod_ofMethod m) _
      fun _ _ => trivial
  have hmacros : (d.macros.map ofMacro).mapM readMacro = some d.macros :=
    mapM_map (fun r hr => (readMacro_ofMacro r).trans (if_pos hr)) h
  rw [decode?, encode, Json.parse_pretty, reread_toJson, Option.bind_some]
  simp only [ofJson, Json.slots, Json.slotsOfFields, Json.under]
  simp [Json.Slot.required, Json.Slot.withDefault, Json.asString, Json.asList, hsuperclass, hmethods,
    hmacros]

/-- A descriptor that is read from its text has blocks in last places only. -/
theorem blocksLast_of_decode?_encode {d d' : Descriptor} (h : decode? d.encode = some d') :
    d.BlocksLast := by
  by_contra hlast
  simp only [BlocksLast, not_forall] at hlast
  obtain ⟨r, hr, hblock⟩ := hlast
  have hnone := mapM_map_eq_none hr ((readMacro_ofMacro r).trans (if_neg hblock))
  rw [decode?, encode, Json.parse_pretty, reread_toJson, Option.bind_some] at h
  simp only [ofJson, Json.slots, Json.slotsOfFields, Json.under] at h
  simp [Json.Slot.required, Json.Slot.withDefault, Json.asString, Json.asList, hnone] at h

/-- The text of a descriptor is read as no other one. -/
theorem eq_of_decode?_encode {d d' : Descriptor} (h : decode? d.encode = some d') : d' = d := by
  rw [decode?_encode (blocksLast_of_decode?_encode h)] at h
  exact (Option.some.inj h).symm

/-- Descriptors have texts of their own. -/
theorem encode_inj {d d' : Descriptor} (h : d.encode = d'.encode) : d = d' := by
  have hread := congrArg Json.parse h
  rw [encode, encode, Json.parse_pretty, Json.parse_pretty, reread_toJson, reread_toJson] at hread
  have hsuperclass {o o' : Option String} (h : Json.ofOption o = Json.ofOption o') : o = o' := by
    cases o <;> cases o' <;> simp_all [Json.ofOption]
  have hmethods : Function.Injective ofMethod := by
    intro m m' hm
    have hsame := congrArg readMethod hm
    rw [readMethod_ofMethod, readMethod_ofMethod] at hsame
    exact Option.some.inj hsame
  have hmacros : Function.Injective ofMacro := by
    rintro ⟨name, signature, unit⟩ ⟨name', signature', unit'⟩ hr
    simp only [ofMacro, Json.obj.injEq, List.cons.injEq, Prod.mk.injEq, Json.str.injEq, true_and,
      and_true] at hr
    obtain ⟨rfl, hsignature, rfl⟩ := hr
    rw [Signature.encode_inj hsignature]
  simp only [Option.some.injEq, Json.obj.injEq, List.cons.injEq, Prod.mk.injEq, Json.str.injEq,
    Json.arr.injEq, true_and, and_true] at hread
  obtain ⟨hname, hparent, hms, hrs⟩ := hread
  obtain ⟨name, superclass, methods, macros⟩ := d
  obtain ⟨name', superclass', methods', macros'⟩ := d'
  obtain rfl : name = name' := hname
  obtain rfl : superclass = superclass' := hsuperclass hparent
  obtain rfl : methods = methods' := hmethods.list_map hms
  obtain rfl : macros = macros' := hmacros.list_map hrs
  rfl

end Descriptor

end Quasiquote
