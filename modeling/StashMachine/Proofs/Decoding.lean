import StashMachine.Syntax.Source

/-!
# StashMachine.Proofs.Decoding — sources, read off their bytes

To evaluate what a fixed source is read as, its characters are needed first, and `String.toList` finds each
of them by a search for its place.  ASCII characters are the bytes themselves.

* `Text.decode`, `decode_eq_toList`: the characters of a text, in one pass over its bytes if these are ASCII.
* `Grammar.parseDecoded?`, `parse?_eq_parseDecoded?`, `Program.parse_eq_parseDecoded?`: sources are read from
  these characters.
-/

namespace StashMachine

namespace Text

/-- The characters of a text, in one pass over its bytes if these are ASCII. -/
def decode (s : String) : List Char :=
  let bytes := s.toByteArray.data.toList
  if bytes.all (· < 128) then bytes.map (fun b => Char.ofNat b.toNat) else s.toList

/-- The bytes behind the first one of a character are not ASCII. -/
theorem continuation_not_ascii (n : Nat) : ¬ UInt8.ofNat (n % 64 + 128) < 128 := by
  rw [UInt8.lt_iff_toNat_lt, UInt8.toNat_ofNat', Nat.mod_eq_of_lt (by omega)]
  exact Nat.not_lt.mpr (Nat.le_add_left 128 (n % 64))

theorem utf8EncodeChar_of_ascii {c : Char} (h : ∀ b ∈ String.utf8EncodeChar c, b < 128) :
    c.toNat ≤ 127 ∧ String.utf8EncodeChar c = [UInt8.ofNat c.toNat] := by
  unfold String.utf8EncodeChar at h ⊢
  dsimp only at h ⊢
  split at h
  · rename_i hone
    exact ⟨hone, if_pos hone⟩
  · split at h
    · exact absurd (h _ (.tail _ (.head _))) (continuation_not_ascii _)
    · split at h
      · exact absurd (h _ (.tail _ (.head _))) (continuation_not_ascii _)
      · exact absurd (h _ (.tail _ (.head _))) (continuation_not_ascii _)

theorem map_ofNat_flatMap_utf8EncodeChar {cs : List Char}
    (h : ∀ b ∈ cs.flatMap String.utf8EncodeChar, b < 128) :
    (cs.flatMap String.utf8EncodeChar).map (fun b => Char.ofNat b.toNat) = cs := by
  induction cs with
  | nil => rfl
  | cons c cs ih =>
    simp only [List.flatMap_cons, List.forall_mem_append] at h
    obtain ⟨hone, hbyte⟩ := utf8EncodeChar_of_ascii h.1
    have hchar : Char.ofNat (UInt8.ofNat c.toNat).toNat = c := by
      rw [UInt8.toNat_ofNat', Nat.mod_eq_of_lt (by omega), Char.ofNat_toNat]
    rw [List.flatMap_cons, hbyte, List.map_append, ih h.2, List.map_singleton, hchar, List.singleton_append]

theorem decode_eq_toList (s : String) : decode s = s.toList := by
  have hbytes : s.toByteArray.data.toList = s.toList.flatMap String.utf8EncodeChar := by
    rw [← String.utf8Encode_toList, List.utf8Encode, List.toList_data_toByteArray]
  unfold decode
  simp only [hbytes]
  split
  · rename_i hascii
    simp only [List.all_eq_true, decide_eq_true_eq] at hascii
    exact map_ofNat_flatMap_utf8EncodeChar hascii
  · rfl

end Text

namespace Grammar

/-- The parse tree of a whole source under a rule, from its decoded characters. -/
def parseDecoded? (r : Rule) (source : String) : Option Tree :=
  let cs := Text.decode source
  match Rule.run (32 * (cs.length + 1)) .free r ⟨0, 0, cs⟩ with
  | .matched _ [t] => some t
  | _ => none

theorem parse?_eq_parseDecoded? (r : Rule) (source : String) : parse? r source = parseDecoded? r source := by
  unfold parseDecoded?
  simp only [Text.decode_eq_toList, String.length_toList]
  rfl

end Grammar

theorem Program.parse_eq_parseDecoded? (source : String) : Program.parse source =
    match Grammar.parseDecoded? .compilationUnit source with
    | none => .error (.ofRejection .compilationUnit source)
    | some t => (Program.ofTree t).mapError (SourceError.ofMisread source) := by
  have hparse := Grammar.parse?_eq_parseDecoded? .compilationUnit source
  unfold Program.parse readSource
  cases h : Grammar.parseDecoded? .compilationUnit source with
  | none => rw [hparse.trans h]
  | some t => rw [hparse.trans h]

end StashMachine
