import StoryFlow.Json.Printer
import StoryFlow.Json.Reader

/-! # Quoted texts are read

Each character of a quoted text is read from what it is escaped to, so a quoted text is read up to
its closing quote and no further.
-/

namespace StoryFlow.Json

variable {cs rest : List Char} {n : Nat} {c : Char}

theorem hexValue?_hexDigit (k : Nat) : hexValue? (hexDigit k) = some (k % 16) := by
  have h : ∀ k < 16, hexValue? (Nat.digitChar k) = some k := by decide
  rw [hexDigit]
  exact h _ (Nat.mod_lt _ (by decide))

theorem escape?_hex (hc : c.toNat < 32) :
    escape? ('u' :: '0' :: '0' :: hexDigit (c.toNat / 16) :: hexDigit c.toNat :: rest) =
      some (c, rest) := by
  have hzero : hexValue? '0' = some 0 := rfl
  have hunit : hexUnit? ('0' :: '0' :: hexDigit (c.toNat / 16) :: hexDigit c.toNat :: rest) =
      some (c.toNat, rest) := by
    simp only [hexUnit?, hzero, hexValue?_hexDigit, Option.bind_eq_bind, Option.bind_some]
    congr 2
    omega
  rw [escape?, codeEscape?, hunit, Option.map_some]
  simp only [Char.ofNat_toNat]
  rw [if_neg (by omega), if_neg (by omega)]

/-- A character that takes an escape is read from what stands after the backslash. -/
theorem escapeChar_cases (c : Char) :
    (∃ code, escapeChar c = '\\' :: code ∧ ∀ rest, escape? (code ++ rest) = some (c, rest)) ∨
      (escapeChar c = [c] ∧ c ≠ '"' ∧ c ≠ '\\' ∧ ¬ c.toNat < 32) := by
  have short {d : Char} (code : Char) (hcode : escapeChar d = ['\\', code])
      (h : ∀ rest, escape? (code :: rest) = some (d, rest)) :
      ∃ code, escapeChar d = '\\' :: code ∧ ∀ rest, escape? (code ++ rest) = some (d, rest) :=
    ⟨[code], hcode, h⟩
  by_cases hquote : c = '"'
  · exact .inl (hquote ▸ short '"' rfl fun _ => rfl)
  by_cases hslash : c = '\\'
  · exact .inl (hslash ▸ short '\\' rfl fun _ => rfl)
  by_cases hfeed : c = '\n'
  · exact .inl (hfeed ▸ short 'n' rfl fun _ => rfl)
  by_cases hreturn : c = '\r'
  · exact .inl (hreturn ▸ short 'r' rfl fun _ => rfl)
  by_cases htab : c = '\t'
  · exact .inl (htab ▸ short 't' rfl fun _ => rfl)
  by_cases hback : c.toNat = 8
  · have hc : c = '\x08' := by rw [← Char.ofNat_toNat c, hback]
    exact .inl (hc ▸ short 'b' rfl fun _ => rfl)
  by_cases hform : c.toNat = 12
  · have hc : c = '\x0c' := by rw [← Char.ofNat_toNat c, hform]
    exact .inl (hc ▸ short 'f' rfl fun _ => rfl)
  by_cases hcontrol : c.toNat < 32
  · refine .inl ⟨['u', '0', '0', hexDigit (c.toNat / 16), hexDigit c.toNat], ?_,
      fun rest => escape?_hex hcontrol⟩
    simp [escapeChar, hquote, hslash, hfeed, hreturn, htab, hback, hform, hcontrol]
  · refine .inr ⟨?_, hquote, hslash, hcontrol⟩
    simp [escapeChar, hquote, hslash, hfeed, hreturn, htab, hback, hform, hcontrol]

theorem readQuoted_escapeChar (c : Char) (cs : List Char) :
    readQuoted (n + 1) (escapeChar c ++ cs) =
      (readQuoted n cs).map fun (text, rest) => (c :: text, rest) := by
  rcases escapeChar_cases c with ⟨code, hcode, hread⟩ | ⟨hplain, hquote, hslash, hcontrol⟩
  · rw [hcode, List.cons_append, readQuoted, hread, Option.bind_eq_bind, Option.bind_some]
    cases h : readQuoted n cs <;> simp [h]
  · rw [hplain, List.singleton_append]
    simp only [readQuoted, hcontrol, if_false]
    cases readQuoted n cs <;> rfl

theorem readQuoted_flatMap (hn : cs.length < n) :
    readQuoted n (cs.flatMap escapeChar ++ '"' :: rest) = some (cs, rest) := by
  induction cs generalizing n with
  | nil =>
    obtain ⟨n, rfl⟩ := Nat.exists_eq_add_of_lt hn
    rfl
  | cons c cs ih =>
    obtain ⟨n, rfl⟩ := Nat.exists_eq_add_one_of_ne_zero (Nat.ne_zero_of_lt hn)
    rw [List.length_cons, Nat.add_lt_add_iff_right] at hn
    rw [List.flatMap_cons, List.append_assoc, readQuoted_escapeChar, ih hn]
    rfl

theorem length_le_flatMap_escapeChar (cs : List Char) :
    cs.length ≤ (cs.flatMap escapeChar).length := by
  induction cs with
  | nil => exact Nat.le_refl 0
  | cons c cs ih =>
    have hc : 0 < (escapeChar c).length := by
      rcases escapeChar_cases c with ⟨code, hcode, -⟩ | ⟨hplain, -⟩
      · simp [hcode]
      · simp [hplain]
    rw [List.flatMap_cons, List.length_append, List.length_cons]
    omega

/-- What stands after the opening quote of a quoted text is that text and its closing quote. -/
theorem readQuoted_quoted (s : String) (rest : List Char) :
    ∃ cs, quoted s ++ rest = '"' :: cs ∧ readQuoted (cs.length + 1) cs = some (s.toList, rest) := by
  refine ⟨s.toList.flatMap escapeChar ++ '"' :: rest, by simp [quoted], readQuoted_flatMap ?_⟩
  have := length_le_flatMap_escapeChar s.toList
  rw [List.length_append]
  omega

end StoryFlow.Json
