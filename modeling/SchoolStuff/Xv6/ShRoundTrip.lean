import SchoolStuff.Xv6.ShParse

/-!
# Xv6 — the round trip of the shell

`nulterminate` writes a NUL behind each word of a command. No byte of a word is
overwritten, so that each can be read back as a string. Every tree is parsed
from every text that its grammar gives it, and has one (`parsecmd_round_trip`).
-/

namespace SchoolStuff.Xv6.Sh

open CText (ascii)

variable {text mem : List UInt8} {p : Ptr}

/-- The NULs, one after the other. -/
def cuts (ps : List Ptr) (mem : List UInt8) : List UInt8 :=
  ps.foldl (fun mem p => mem.set p.eq 0) mem

theorem cuts_cons (p : Ptr) (ps : List Ptr) (mem : List UInt8) :
    cuts (p :: ps) mem = cuts ps (mem.set p.eq 0) := rfl

theorem nulterminate_eq (cmd : Cmd Ptr) (mem : List UInt8) :
    nulterminate cmd mem = cuts cmd.words mem := by
  induction cmd generalizing mem with
  | exec argv => rfl
  | redir cmd file mode fd ih =>
      rw [nulterminate, ih, cuts, cuts, Cmd.words, List.foldl_append]
      rfl
  | pipe left right ihl ihr =>
      rw [nulterminate, ihl, ihr, cuts, cuts, cuts, Cmd.words, List.foldl_append]
  | list left right ihl ihr =>
      rw [nulterminate, ihl, ihr, cuts, cuts, cuts, Cmd.words, List.foldl_append]
  | back cmd ih => exact ih mem

/-- The bytes of words are kept. -/
theorem cuts_word {ps : List Ptr} (hps : ∀ p ∈ ps, Bounds text p) {i : Nat} {c : UInt8}
    (hc : text[i]? = some c) (hword : isWord c = true) : (cuts ps mem)[i]? = mem[i]? := by
  induction ps generalizing mem with
  | nil => rfl
  | cons p ps ih =>
      have hne : p.eq ≠ i := by
        rintro rfl
        have hstop := (hps p (List.mem_cons_self ..)).stop c (by rw [List.head?_drop, hc]; rfl)
        rw [hword] at hstop
        cases hstop
      exact (ih fun p' hp' => hps p' (List.mem_cons_of_mem p hp')).trans (List.getElem?_set_ne hne)

theorem cuts_nul {ps : List Ptr} {i : Nat} (h : mem[i]? = some 0) : (cuts ps mem)[i]? = some 0 := by
  induction ps generalizing mem with
  | nil => exact h
  | cons p ps ih =>
      rw [cuts_cons]
      apply ih
      by_cases hi : p.eq = i
      · rw [hi, List.getElem?_set_self (List.getElem?_eq_some_iff.1 h).1]
      · rw [List.getElem?_set_ne hi, h]

/-- Behind each word there is a NUL. -/
theorem cuts_eq {ps : List Ptr} (hp : p ∈ ps) (hlt : p.eq < mem.length) :
    (cuts ps mem)[p.eq]? = some 0 := by
  induction ps generalizing mem with
  | nil => cases hp
  | cons p' ps ih =>
      rw [cuts_cons]
      rcases List.mem_cons.1 hp with rfl | hp
      · exact cuts_nul (List.getElem?_set_self hlt)
      · exact ih hp (by rwa [List.length_set])

/-- Between the bounds of a word the memory is as the text. -/
theorem take_cuts {ps : List Ptr} (hps : ∀ p ∈ ps, Bounds text p) (hp : Bounds text p) :
    ((cuts ps (text ++ [0])).drop p.q).take (p.eq - p.q) = slice text p := by
  apply List.ext_getElem?
  intro i
  rw [slice, List.getElem?_take, List.getElem?_take]
  split
  · rename_i hi
    have hlt : p.q + i < text.length := by
      have := hp.eq_le
      omega
    have hmem : text[p.q + i] ∈ slice text p := by
      rw [List.mem_iff_getElem?]
      refine ⟨i, ?_⟩
      rw [slice, List.getElem?_take, if_pos hi, List.getElem?_drop, List.getElem?_eq_getElem hlt]
    rw [List.getElem?_drop, List.getElem?_drop,
      cuts_word hps (List.getElem?_eq_getElem hlt) (hp.word _ hmem).2,
      List.getElem?_append_left hlt]
  · rfl

/-- A word is read back. -/
theorem cstr_cuts {ps : List Ptr} (hps : ∀ p ∈ ps, Bounds text p) (hp : p ∈ ps) :
    CText.cstr (cuts ps (text ++ [0])) p.q = some (slice text p) := by
  have hb := hps p hp
  have heq := hb.eq_le
  have hnul : (cuts ps (text ++ [0]))[p.eq]? = some 0 :=
    cuts_eq hp (by rw [List.length_append, List.length_singleton]; omega)
  have htake := take_cuts hps hb
  generalize cuts ps (text ++ [0]) = mem at hnul htake
  obtain ⟨hlt, hzero⟩ := List.getElem?_eq_some_iff.1 hnul
  have hsplit : mem = mem.take p.q ++ (slice text p ++ 0 :: mem.drop (p.eq + 1)) := by
    have hq := hb.q_le
    rw [← hzero, ← List.drop_eq_getElem_cons hlt, ← htake]
    have hdrop : mem.drop p.eq = (mem.drop p.q).drop (p.eq - p.q) := by
      rw [List.drop_drop, Nat.add_sub_cancel' hq]
    rw [hdrop, List.take_append_drop, List.take_append_drop]
  have hlength : (mem.take p.q).length = p.q := by
    have hq := hb.q_le
    rw [List.length_take]
    omega
  have hread := CText.cstr_append (mem.take p.q) (fun hmem => (hb.word 0 hmem).1 rfl)
    (mem.drop (p.eq + 1))
  rw [← hsplit, hlength] at hread
  exact hread

theorem map_congr_words {α β : Type} {f g : α → β} {cmd : Cmd α}
    (h : ∀ w ∈ cmd.words, f w = g w) : cmd.map f = cmd.map g := by
  induction cmd with
  | exec argv => exact congrArg Cmd.exec (List.map_congr_left h)
  | redir cmd file mode fd ih =>
      rw [Cmd.map, Cmd.map, ih fun w hw => h w (List.mem_append_left [file] hw),
        h file (List.mem_append_right cmd.words (List.mem_singleton_self file))]
  | pipe left right ihl ihr =>
      rw [Cmd.map, Cmd.map, ihl fun w hw => h w (List.mem_append_left right.words hw),
        ihr fun w hw => h w (List.mem_append_right left.words hw)]
  | list left right ihl ihr =>
      rw [Cmd.map, Cmd.map, ihl fun w hw => h w (List.mem_append_left right.words hw),
        ihr fun w hw => h w (List.mem_append_right left.words hw)]
  | back cmd ih => exact congrArg Cmd.back (ih h)

theorem map_map {α β γ : Type} (f : α → β) (g : β → γ) (cmd : Cmd α) :
    (cmd.map f).map g = cmd.map fun w => g (f w) := by
  induction cmd with
  | exec argv => exact congrArg Cmd.exec (List.map_map ..)
  | redir cmd file mode fd ih => rw [Cmd.map, Cmd.map, Cmd.map, ih]
  | pipe left right ihl ihr => rw [Cmd.map, Cmd.map, Cmd.map, ihl, ihr]
  | list left right ihl ihr => rw [Cmd.map, Cmd.map, Cmd.map, ihl, ihr]
  | back cmd ih => rw [Cmd.map, Cmd.map, Cmd.map, ih]

/-- The strings of a command are its words. -/
theorem strings_nulterminate {cmd : Cmd Ptr} {c : Cmd (List UInt8)} (h : Reads text cmd c) :
    cmd.strings (nulterminate cmd (text ++ [0])) = c.map some := by
  rw [nulterminate_eq, ← h.words, map_map]
  exact map_congr_words fun p hp => cstr_cuts h.bounds hp

/-- **The round trip.** A tree has a text, and from each of its texts `parsecmd`
makes its command, with the words and file names as strings, if there is fuel
enough. -/
theorem parsecmd_round_trip (t : Tree) :
    Renders t t.text ∧ ∀ text, Renders t text → ∃ n, ∀ fuel, n ≤ fuel → ∃ cmd mem,
      parsecmd fuel text = .ok (cmd, mem) ∧ cmd.strings mem = t.cmd.map some := by
  refine ⟨renders_text t, ?_⟩
  rintro text ⟨ts, hderives, hspells⟩
  have hat : At text 0 (ts ++ []) := ⟨Nat.zero_le _, by rwa [List.append_nil]⟩
  obtain ⟨n, cmd, s, hcmd, hend, hline⟩ := parses hderives [] 0 (fun _ h => nomatch h) hat
  refine ⟨n, fun fuel hfuel => ⟨cmd, nulterminate cmd (text ++ [0]), ?_, ?_⟩⟩
  · have hline' : parseline text fuel 0 = .ok (cmd, s) := hline fuel hfuel
    have hpeek : (peek text s []).1 = text.length := hend.end_eq
    unfold parsecmd
    simp only [hline', ok_bind, hpeek]
    rw [if_neg (not_not.2 rfl)]
  · exact strings_nulterminate hcmd

example : (parsecmd 20 (ascii "echo <in a>out b|(c;d&)>>e &")).map (fun r => r.1.strings r.2)
    = .ok ((Cmd.back (.pipe
        (.redir (.redir (.exec [ascii "echo", ascii "a", ascii "b"]) (ascii "in") O_RDONLY 0)
          (ascii "out") 0x201 1)
        (.redir (.list (.exec [ascii "c"]) (.back (.exec [ascii "d"]))) (ascii "e") 0x201 1))).map
      some) := by
  decide +kernel

end SchoolStuff.Xv6.Sh
