import Quasiquote.Proofs.Macro.Descriptor

namespace Quasiquote

/-!
# Texts of signatures — what is read, and as what

A text is read as a signature if it is what the signature is written as, and only the last parameter
of the signature may be a block.

* `Signature.decodeKinds_eq_some_iff` — what the letters of kinds and the closing are read as;
* `Signature.decode?_eq_some_iff` — what a text is read as;
* `Signature.decode?_encode_withoutBlock` — a signature that reads back does so without its block.
-/

namespace Signature

variable {cs : List Char} {ps : List ParamKind} {g : Signature}

/-- What is read as kinds consists of their letters and the closing. -/
theorem eq_letters_of_decodeKinds (h : decodeKinds cs = some ps) :
    cs = ps.map ParamKind.letter ++ [')', 'N'] := by
  -- the text is taken apart as it is read: the closing, a letter, or something else
  induction cs using decodeKinds.induct generalizing ps with
  | case1 =>
    obtain rfl : [] = ps := Option.some.inj h
    rfl
  | case2 c cs hclosing k hk ih =>
    rw [decodeKinds] at h
    · rw [hk] at h
      obtain ⟨ks, hks, rfl⟩ := Option.map_eq_some_iff.1 h
      rw [ParamKind.ofLetter?_eq_some hk, ih hks, List.map_cons, List.cons_append]
    · exact hclosing
  | case3 c cs hclosing hk =>
    rw [decodeKinds] at h
    · rw [hk] at h
      cases h
    · exact hclosing
  | case4 => cases h

theorem decodeKinds_eq_some_iff :
    decodeKinds cs = some ps ↔ cs = ps.map ParamKind.letter ++ [')', 'N'] := by
  constructor
  · exact eq_letters_of_decodeKinds
  · rintro rfl
    exact decodeKinds_letters ps

theorem blockLast_iff : blockLast ps = true ↔ ∀ k ∈ ps.dropLast, k ≠ .block := by
  simp [blockLast]

/-- The characters that are read as a signature. -/
theorem decodeChars?_eq_some_iff :
    decodeChars? cs = some g ↔ cs = g.encodeChars ∧ blockLast g.params = true := by
  constructor
  · intro h
    unfold decodeChars? at h
    split at h
    · split at h
      case h_1 letters ps hps =>
        split at h
        · rename_i hlast
          obtain rfl : ⟨ps⟩ = g := Option.some.inj h
          rw [eq_letters_of_decodeKinds hps]
          exact ⟨rfl, hlast⟩
        · cases h
      case h_2 => cases h
    · cases h
  · rintro ⟨rfl, hlast⟩
    rw [encodeChars, decodeChars?, decodeKinds_letters]
    exact if_pos hlast

/-- A text is read as a signature if and only if it is the text of the signature, and only the last
    parameter may be a block. -/
theorem decode?_eq_some_iff (text : String) (g : Signature) :
    decode? text = some g ↔ text = g.encode ∧ ∀ k ∈ g.params.dropLast, k ≠ .block := by
  rw [decode?, decodeChars?_eq_some_iff, blockLast_iff, encode, ← String.ofList_inj,
    String.ofList_toList]

/-- What is left of a signature without its block has a block in the last place only, if that holds
    of the signature. -/
theorem blockLast_withoutBlock (h : blockLast g.params = true) :
    blockLast g.withoutBlock.params = true := by
  unfold withoutBlock
  split
  · rw [blockLast_iff] at h ⊢
    intro k hk
    exact h k (List.dropLast_subset _ hk)
  · exact h

/-- A signature that reads back does so without its block. -/
theorem decode?_encode_withoutBlock (h : blockLast g.params = true) :
    decode? g.withoutBlock.encode = some g.withoutBlock := by
  rw [decode?_encode, if_pos (blockLast_withoutBlock h)]

end Signature

end Quasiquote
