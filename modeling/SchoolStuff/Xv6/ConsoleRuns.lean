import SchoolStuff.Xv6.Console

/-!
# ConsoleRuns — what is typed is read once

Any number of processes read from the console while keys arrive, in any order.
What the echo leaves on the screen is what has been typed and not erased: first
what readers took, with C('D') where one of them got 0, then the finished input,
then the line that is being edited. No reader sleeps while there is input.
-/

namespace SchoolStuff.Xv6.Console

def Echo.on (text : List UInt8) : Echo → List UInt8
  | .backspace => text.dropLast
  | .char c => text ++ [c]

/-- What the echo leaves on the screen behind `text`. -/
def render (text : List UInt8) (echo : List Echo) : List UInt8 := echo.foldl Echo.on text

/-- All that has been echoed. -/
def echoed (fxs : List Effect) : List Echo := fxs.flatMap Effect.echo

/-- All that has been delivered, in that order. -/
def delivered (fxs : List Effect) : List UInt8 := fxs.flatMap Effect.delivered

/-- A call for at least one byte has returned 0. -/
def Effect.eof (fx : Effect) : Bool :=
  match fx.ret with
  | some (_ + 1, r) => r = 0
  | _ => false

theorem render_append (text : List UInt8) (echo echo' : List Echo) :
    render text (echo ++ echo') = render (render text echo) echo' :=
  List.foldl_append ..

theorem render_backspaces (text : List UInt8) (line : List UInt8) :
    render (text ++ line) (List.replicate line.length .backspace) = text := by
  induction hn : line.length generalizing line with
  | zero =>
      rw [List.length_eq_zero_iff.1 hn, List.append_nil]
      rfl
  | succ n ih =>
      have hne : line ≠ [] := by
        rintro rfl
        cases hn
      rw [List.replicate_succ, render, List.foldl_cons, ← render, Echo.on,
        List.dropLast_append_of_ne_nil hne]
      exact ih line.dropLast (by rw [List.length_dropLast, hn, Nat.add_sub_cancel])

namespace Tty

variable {t : Tty} {text : List UInt8}

/-- What a key does to the screen and the lists. -/
structure Typed (t t' : Tty) (out : List Echo) (woken : Bool) : Prop where
  screen : ∀ text, Console.render (text ++ t.ready ++ t.line) out = text ++ t'.ready ++ t'.line
  ready : woken = false → t'.ready = t.ready

theorem typed_store (t : Tty) (c : UInt8) :
    Typed t (t.store c).1 (t.store c).2.1 (t.store c).2.2 := by
  unfold store
  split
  · generalize (if c = 13 then newline else c) = c'
    simp only
    split
    · exact ⟨fun text => by simp [Console.render, Echo.on], fun h => nomatch h⟩
    · exact ⟨fun text => by simp [Console.render, Echo.on], fun _ => rfl⟩
  · exact ⟨fun _ => rfl, fun _ => rfl⟩

theorem typed_key (t : Tty) (c : UInt8) :
    Typed t (t.key c).1 (t.key c).2.1 (t.key c).2.2 := by
  unfold key
  split
  · exact ⟨fun _ => rfl, fun _ => rfl⟩
  split
  · refine ⟨fun text => ?_, fun _ => rfl⟩
    rw [render_backspaces, List.append_nil]
  split
  · split
    · rename_i hline
      refine ⟨fun text => ?_, fun _ => rfl⟩
      simp only [Console.render, List.foldl_cons, List.foldl_nil, Echo.on]
      rw [List.dropLast_append_of_ne_nil hline]
    · exact ⟨fun _ => rfl, fun _ => rfl⟩
  · exact typed_store t c

/-- What the loop of `consoleread` has taken: the bytes that are copied, and
C('D') in front of all of them. -/
structure Taken (target n : Nat) (t t' : Tty) (bytes : List UInt8) (stop : Stop)
    (ends : List UInt8) : Prop where
  ready : t.ready = bytes ++ ends ++ t'.ready
  line : t'.line = t.line
  no_eof : eof ∉ bytes
  one_line : newline ∉ bytes.dropLast
  le : bytes.length ≤ n
  which : ends = [] ∨ ends = [eof] ∧ 0 < n ∧ bytes.length + target ≤ n ∧ stop = .done
  empty : stop = .empty → t'.ready = [] ∧ bytes.length < n
  done : stop = .done → bytes.length = n ∨ bytes.getLast? = some newline
    ∨ ends = [eof] ∨ t'.ready.head? = some eof ∧ n < bytes.length + target

theorem taken_read (target n : Nat) (t : Tty) :
    ∃ ends, Taken target n t (t.read target n).2.2 (t.read target n).1 (t.read target n).2.1
      ends := by
  induction n generalizing t with
  | zero =>
      exact ⟨[], rfl, rfl, List.not_mem_nil, List.not_mem_nil, le_refl _, Or.inl rfl,
        fun h => Stop.noConfusion h, fun _ => Or.inl rfl⟩
  | succ n ih =>
      obtain ⟨ready, line⟩ := t
      cases ready with
      | nil =>
          exact ⟨[], rfl, rfl, List.not_mem_nil, List.not_mem_nil, Nat.zero_le _, Or.inl rfl,
            fun _ => ⟨rfl, Nat.succ_pos n⟩, fun h => Stop.noConfusion h⟩
      | cons c cs =>
          simp only [Tty.read]
          by_cases heof : c = eof
          · rw [if_pos heof]
            by_cases hlt : n + 1 < target
            · rw [if_pos hlt]
              exact ⟨[], rfl, rfl, List.not_mem_nil, List.not_mem_nil, Nat.zero_le _, Or.inl rfl,
                fun h => Stop.noConfusion h, fun _ => Or.inr (Or.inr (Or.inr
                  ⟨by rw [heof]; rfl, by rw [List.length_nil]; omega⟩))⟩
            · rw [if_neg hlt]
              exact ⟨[eof], by rw [heof]; rfl, rfl, List.not_mem_nil, List.not_mem_nil,
                Nat.zero_le _, Or.inr ⟨rfl, Nat.succ_pos n, by rw [List.length_nil]; omega, rfl⟩,
                fun h => Stop.noConfusion h, fun _ => Or.inr (Or.inr (Or.inl rfl))⟩
          rw [if_neg heof]
          by_cases hline : c = newline
          · rw [if_pos hline]
            refine ⟨[], rfl, rfl, fun hmem => heof (List.mem_singleton.1 hmem).symm,
              List.not_mem_nil, Nat.succ_le_succ (Nat.zero_le n), Or.inl rfl,
              fun h => Stop.noConfusion h, fun _ => Or.inr (Or.inl (by rw [hline]; rfl))⟩
          · rw [if_neg hline]
            have hrec := ih ⟨cs, line⟩
            generalize read target n ⟨cs, line⟩ = x at hrec ⊢
            obtain ⟨bytes, stop, t'⟩ := x
            obtain ⟨ends, hr, hl, hne, hone, hle, hends, hempty, hdone⟩ := hrec
            refine ⟨ends, congrArg (c :: ·) hr, hl, ?_, ?_, Nat.succ_le_succ hle, ?_, ?_, ?_⟩
            · exact fun hmem => (List.mem_cons.1 hmem).elim (fun heq => heof heq.symm) hne
            · cases bytes with
              | nil => exact List.not_mem_nil
              | cons b bytes =>
                  rw [List.dropLast_cons_of_ne_nil (List.cons_ne_nil b bytes)]
                  exact fun hmem => (List.mem_cons.1 hmem).elim (fun heq => hline heq.symm) hone
            · rw [List.length_cons]
              exact hends.imp id fun hor => ⟨hor.1, Nat.succ_pos n, by omega, hor.2.2.2⟩
            · exact fun h => ⟨(hempty h).1, Nat.succ_lt_succ (hempty h).2⟩
            · intro h
              rw [List.length_cons]
              obtain heq | heq | heq | ⟨heq, hlt⟩ := hdone h
              · exact Or.inl (congrArg Nat.succ heq)
              · refine Or.inr (Or.inl ?_)
                cases bytes with
                | nil => cases heq
                | cons b bytes => exact heq
              · exact Or.inr (Or.inr (Or.inl heq))
              · exact Or.inr (Or.inr (Or.inr ⟨heq, by omega⟩))

end Tty

/-! ## Runs -/

namespace Sys

variable {ι : Type} [DecidableEq ι] {t t' : Sys Tty ι}

/-- **The invariant of a run**: `taken` is what readers have taken, and `text`,
`bytes` and `eofs` are what the steps have echoed, delivered and ended. -/
structure Inv (t : Sys Tty ι) (taken text bytes : List UInt8) (eofs : Nat) : Prop where
  screen : text = taken ++ t.dev.ready ++ t.dev.line
  bytes : bytes = taken.filter (· ≠ eof)
  eofs : eofs = taken.count eof
  asleep : ∀ p target n, t.call p = .reading target n true →
    t.dev.ready = [] ∧ t.killed p = false
  calls : ∀ p target n a, t.call p = .reading target n a → 0 < n ∧ n ≤ target

variable {taken text bytes : List UInt8} {eofs : Nat}

omit [DecidableEq ι] in
theorem inv_init (killed : ι → Bool) : Inv (init ⟨[], []⟩ killed) [] [] [] 0 :=
  ⟨rfl, rfl, rfl, fun _ _ _ h => (nomatch h), fun _ _ _ _ h => (nomatch h)⟩

theorem wake_eq {call : Call} {target n : Nat} {a : Bool}
    (h : call.wake = .reading target n a) : a = false ∧ ∃ a', call = .reading target n a' := by
  cases call with
  | idle => cases h
  | reading target' n' a' =>
      cases h
      exact ⟨rfl, a', rfl⟩

omit [DecidableEq ι] in
theorem Inv.intr (h : t.Inv taken text bytes eofs) (keys : List UInt8) :
    ∃ t' out, t.intr lists keys = some (t', out)
      ∧ t'.Inv taken (render text out) bytes eofs := by
  induction keys generalizing t text with
  | nil => exact ⟨t, [], rfl, h⟩
  | cons c cs ih =>
      have hkey := Tty.typed_key t.dev c
      have hnext : Inv (ι := ι) { t with dev := (t.dev.key c).1, call :=
          if (t.dev.key c).2.2 then fun p => (t.call p).wake else t.call } taken
          (render text (t.dev.key c).2.1) bytes eofs := by
        refine ⟨?_, h.bytes, h.eofs, fun p target n hp => ?_, fun p target n a hp => ?_⟩
        · rw [h.screen]
          exact hkey.screen taken
        · simp only at hp ⊢
          split at hp
          · exact absurd (wake_eq hp).1 (by decide)
          · rename_i hwoken
            rw [hkey.ready (Bool.not_eq_true _ ▸ hwoken)]
            exact h.asleep p target n hp
        · simp only at hp
          split at hp
          · obtain ⟨_, a', ha'⟩ := wake_eq hp
            exact h.calls p target n a' ha'
          · exact h.calls p target n a hp
      obtain ⟨t', out, hrun, hinv⟩ := ih hnext
      refine ⟨t', (t.dev.key c).2.1 ++ out, ?_, ?_⟩
      · simp only [Sys.intr, lists, Option.bind_eq_bind, Option.bind_some]
        rw [lists] at hrun
        rw [hrun]
        rfl
      · rw [render_append]
        exact hinv

/-- Other processes sleep as they did. -/
theorem Inv.setCall (h : t.Inv taken text bytes eofs) {taken' bytes' : List UInt8} {eofs' : Nat}
    {dev : Tty} {p : ι} {call : Call} (hscreen : text = taken' ++ dev.ready ++ dev.line)
    (hbytes : bytes' = taken'.filter (· ≠ eof)) (heofs : eofs' = taken'.count eof)
    (hready : t.dev.ready = [] → dev.ready = [])
    (hasleep : ∀ target n, call = .reading target n true → dev.ready = [] ∧ t.killed p = false)
    (hcall : ∀ target n a, call = .reading target n a → 0 < n ∧ n ≤ target) :
    (({ t with dev := dev } : Sys Tty ι).setCall p call).Inv taken' text bytes' eofs' := by
  refine ⟨hscreen, hbytes, heofs, fun q target n hq => ?_, fun q target n a hq => ?_⟩
  · by_cases hqp : q = p
    · rw [hqp] at hq ⊢
      exact hasleep target n ((Function.update_self ..).symm.trans hq)
    · obtain ⟨hempty, hkilled⟩ := h.asleep q target n ((Function.update_of_ne hqp ..).symm.trans hq)
      exact ⟨hready hempty, hkilled⟩
  · by_cases hqp : q = p
    · rw [hqp] at hq
      exact hcall target n a ((Function.update_self ..).symm.trans hq)
    · exact h.calls q target n a ((Function.update_of_ne hqp ..).symm.trans hq)

theorem eof_done {target m : Nat} (hm : m ≤ target) {out : List Echo} {bytes : List UInt8} :
    Effect.eof ⟨out, bytes, some (target, (target : Int) - m)⟩
      = decide (0 < target ∧ m = target) := by
  cases target with
  | zero => rfl
  | succ target =>
      simp only [Effect.eof, Nat.succ_pos, true_and, decide_eq_decide]
      omega

/-- **What one step of `consoleread` takes.** -/
theorem Inv.read (h : t.Inv taken text bytes eofs) (p : ι) {target n : Nat} (hn : n ≤ target) :
    ∃ taken', (t.read lists p target n).1.Inv taken' text
      (bytes ++ (t.read lists p target n).2.delivered)
      (eofs + (t.read lists p target n).2.eof.toNat) := by
  obtain ⟨ends, htaken⟩ := Tty.taken_read target n t.dev
  simp only [Sys.read, lists]
  generalize Tty.read target n t.dev = x at htaken ⊢
  obtain ⟨bytes', stop, t'⟩ := x
  have hle := htaken.le
  have hscreen : text = taken ++ (bytes' ++ ends) ++ t'.ready ++ t'.line := by
    rw [h.screen, htaken.line, htaken.ready]
    simp only [List.append_assoc]
  have hends : ends.filter (· ≠ eof) = [] := by
    obtain rfl | ⟨rfl, _⟩ := htaken.which
    · rfl
    · rfl
  have hbytes : bytes ++ bytes' = (taken ++ (bytes' ++ ends)).filter (· ≠ eof) := by
    have hself : bytes'.filter (· ≠ eof) = bytes' :=
      List.filter_eq_self.2 fun c hc => decide_eq_true (ne_of_mem_of_not_mem hc htaken.no_eof)
    rw [List.filter_append, List.filter_append, hself, hends, List.append_nil, ← h.bytes]
  have hcount : (taken ++ (bytes' ++ ends)).count eof = eofs + ends.count eof := by
    rw [List.count_append, List.count_append, List.count_eq_zero.2 htaken.no_eof, Nat.zero_add,
      ← h.eofs]
  have hready : t.dev.ready = [] → t'.ready = [] := by
    intro hempty
    have heq := htaken.ready
    rw [hempty] at heq
    exact (List.append_eq_nil_iff.1 heq.symm).2
  cases stop with
  | done =>
      refine ⟨_, h.setCall hscreen hbytes ?_ hready (fun _ _ hc => Call.noConfusion hc)
        fun _ _ _ hc => Call.noConfusion hc⟩
      rw [hcount, eof_done (Nat.le_trans (Nat.sub_le ..) hn)]
      congr 1
      obtain rfl | ⟨rfl, hpos, hlen, _⟩ := htaken.which
      · rw [decide_eq_false]
        · rfl
        rintro ⟨hpos, heq⟩
        -- a byte has been copied, or some were before
        obtain hdone | hdone | hdone | ⟨_, hdone⟩ := htaken.done rfl
        · omega
        · cases bytes' with
          | nil => cases hdone
          | cons b bytes' =>
              simp only [List.length_cons] at hle heq
              omega
        · cases hdone
        · omega
      · rw [decide_eq_true ⟨by omega, by omega⟩]
        rfl
  | empty =>
      obtain ⟨hempty, hlt⟩ : t'.ready = [] ∧ bytes'.length < n := htaken.empty rfl
      have hnil : ends = [] := htaken.which.resolve_right fun hor => Stop.noConfusion hor.2.2.2
      simp only
      split
      · refine ⟨_, h.setCall hscreen hbytes ?_ hready (fun _ _ hc => Call.noConfusion hc)
          fun _ _ _ hc => Call.noConfusion hc⟩
        rw [hcount, hnil]
        cases target with
        | zero => rfl
        | succ target => rfl
      · rename_i hkilled
        refine ⟨_, h.setCall hscreen hbytes ?_ hready (fun target' n' _ =>
          ⟨hempty, Bool.not_eq_true _ ▸ hkilled⟩) fun target' n' a hc => ?_⟩
        · rw [hcount, hnil]
          rfl
        · cases hc
          show 0 < n - bytes'.length ∧ n - bytes'.length ≤ target
          omega

theorem Inv.kill (h : t.Inv taken text bytes eofs) (p : ι) :
    (t.kill p).Inv taken text bytes eofs := by
  refine ⟨h.screen, h.bytes, h.eofs, fun q target n hq => ?_, fun q target n a hq => ?_⟩
  · by_cases hqp : q = p
    · rw [hqp] at hq
      have hwake := (Function.update_self ..).symm.trans hq
      exact absurd (wake_eq hwake).1 (by decide)
    · obtain ⟨hempty, hkilled⟩ := h.asleep q target n ((Function.update_of_ne hqp ..).symm.trans hq)
      exact ⟨hempty, (Function.update_of_ne hqp ..).trans hkilled⟩
  · by_cases hqp : q = p
    · rw [hqp] at hq
      obtain ⟨_, a', ha'⟩ := wake_eq ((Function.update_self ..).symm.trans hq)
      exact h.calls p target n a' ha'
    · exact h.calls q target n a ((Function.update_of_ne hqp ..).symm.trans hq)

/-- **Step lemma.** -/
theorem Inv.step (h : t.Inv taken text bytes eofs) {e : Event ι} {fx : Effect}
    (hstep : t.step lists e = some (t', fx)) :
    ∃ taken', t'.Inv taken' (render text fx.echo) (bytes ++ fx.delivered)
      (eofs + fx.eof.toNat) := by
  have hread : ∀ p target n, n ≤ target → t.read lists p target n = (t', fx) →
      ∃ taken', t'.Inv taken' (render text fx.echo) (bytes ++ fx.delivered)
        (eofs + fx.eof.toNat) := by
    intro p target n hn heq
    obtain ⟨taken', hinv⟩ := h.read p hn
    have hecho : (t.read lists p target n).2.echo = [] := by
      simp only [Sys.read]
      split
      · rfl
      · split
        · rfl
        · rfl
    rw [heq] at hinv hecho
    exact ⟨taken', by rw [hecho]; exact hinv⟩
  cases e with
  | intr keys =>
      obtain ⟨t₁, out, hrun, hinv⟩ := h.intr keys
      rw [Sys.step, hrun] at hstep
      cases hstep
      exact ⟨taken, by rw [List.append_nil]; exact hinv⟩
  | read p n =>
      simp only [Sys.step, Option.ite_none_right_eq_some, Option.some.injEq] at hstep
      exact hread p n n (le_refl n) hstep.2
  | resume p =>
      simp only [Sys.step] at hstep
      split at hstep
      · rename_i target n hcall
        exact hread p target n (h.calls p target n false hcall).2 (Option.some.inj hstep)
      · cases hstep
  | kill p =>
      cases hstep
      exact ⟨taken, by rw [List.append_nil]; exact h.kill p⟩

/-- **Run lemma.** -/
theorem Inv.run (h : t.Inv taken text bytes eofs) {es : List (Event ι)} {fxs : List Effect}
    (hrun : t.run lists es = some (t', fxs)) :
    ∃ taken', t'.Inv taken' (render text (echoed fxs)) (bytes ++ Console.delivered fxs)
      (eofs + fxs.countP Effect.eof) := by
  induction es generalizing t taken text bytes eofs fxs with
  | nil =>
      cases hrun
      refine ⟨taken, ?_⟩
      rw [Console.delivered, List.flatMap_nil, List.append_nil]
      exact h
  | cons e es ih =>
      simp only [Sys.run, Option.bind_eq_bind, Option.bind_eq_some_iff] at hrun
      obtain ⟨⟨t₁, fx⟩, hstep, ⟨t₂, fxs₁⟩, hrest, heq⟩ := hrun
      cases heq
      obtain ⟨taken₁, hinv₁⟩ := h.step hstep
      obtain ⟨taken', hinv⟩ := ih hinv₁ hrest
      refine ⟨taken', ?_⟩
      rw [echoed, Console.delivered, List.flatMap_cons, List.flatMap_cons, render_append,
        ← List.append_assoc, List.countP_cons]
      have hcount : eofs + (List.countP Effect.eof fxs₁ + if fx.eof = true then 1 else 0)
          = eofs + fx.eof.toNat + List.countP Effect.eof fxs₁ := by
        cases fx.eof with
        | false => rfl
        | true =>
            simp only [if_true, Bool.toNat_true]
            omega
      rw [← hcount] at hinv
      exact hinv

end Sys

variable {ι : Type} [DecidableEq ι]

omit [DecidableEq ι] in
theorem init_is (buf : Fin INPUT_BUF → UInt8) (killed : ι → Bool) :
    (Sys.init ⟨buf, 0, 0, 0⟩ killed).Is (Sys.init ⟨[], []⟩ killed) := by
  refine ⟨⟨0, rfl, rfl, rfl, Nat.zero_le _, ?_, List.not_mem_nil, List.not_mem_nil⟩, rfl, rfl⟩
  exact fun k hk => absurd hk (Nat.not_lt_zero k)

/-- **The ring is the two lists.** In every run, with keys, readers and kills in any
order, the console with its ring of `INPUT_BUF` characters and its wrapping
counters does what a terminal with two lists does: the same steps are possible,
with the same echo, the same bytes for the same calls and the same results. -/
theorem console_refines (buf : Fin INPUT_BUF → UInt8) (killed : ι → Bool)
    (es : List (Event ι)) :
    Sys.Same ((Sys.init ⟨buf, 0, 0, 0⟩ killed).run ring es)
      ((Sys.init ⟨[], []⟩ killed).run lists es) :=
  (init_is buf killed).run es

/-- **What is typed is read once.** The screen has what readers have taken, then
what they can take, the characters of the ring from `r` to `w`, and the line
that is being typed, those from `w` to `e`; they were delivered what they took
but C('D'), for each of which a call returned 0; at most `INPUT_BUF` characters
are in the ring, and no reader sleeps while there is input. -/
theorem console_reads {buf : Fin INPUT_BUF → UInt8} {killed : ι → Bool} {es : List (Event ι)}
    {s : Sys Input ι} {fxs : List Effect}
    (hrun : (Sys.init ⟨buf, 0, 0, 0⟩ killed).run ring es = some (s, fxs)) :
    ∃ taken ready line, render [] (echoed fxs) = taken ++ ready ++ line
      ∧ delivered fxs = taken.filter (· ≠ eof)
      ∧ fxs.countP Effect.eof = taken.count eof
      ∧ ready.length = (s.dev.w - s.dev.r).toNat ∧ line.length = (s.dev.e - s.dev.w).toNat
      ∧ ready.length + line.length ≤ INPUT_BUF
      ∧ (∀ k, k < ready.length + line.length →
        (ready ++ line)[k]? = some (s.dev.get (s.dev.r + UInt32.ofNat k)))
      ∧ ∀ p target n, s.call p = .reading target n true →
        s.dev.r = s.dev.w ∧ s.killed p = false := by
  obtain ⟨hnone, _⟩ | ⟨s', t, fxs', hs, ht, hst⟩ := (init_is buf killed).run es
  · rw [hrun] at hnone
    cases hnone
  rw [hrun, Option.some.injEq, Prod.mk.injEq] at hs
  obtain ⟨rfl, rfl⟩ := hs
  obtain ⟨taken, hinv⟩ := (Sys.inv_init killed).run ht
  rw [List.nil_append, Nat.zero_add] at hinv
  obtain ⟨i, hdev⟩ := hst.dev
  have hroom := hdev.room
  have hsize : INPUT_BUF < 2 ^ 32 := by decide
  refine ⟨taken, t.dev.ready, t.dev.line, hinv.screen, hinv.bytes, hinv.eofs, ?_, ?_, hroom,
    fun k hk => ?_, fun p target n hp => ?_⟩
  · rw [hdev.w, hdev.r, ← UInt32.ofNat_sub (Nat.le_add_right ..), Nat.add_sub_cancel_left,
      UInt32.toNat_ofNat', Nat.mod_eq_of_lt (by omega)]
  · rw [hdev.e, hdev.w, ← UInt32.ofNat_sub (Nat.le_add_right ..), Nat.add_sub_cancel_left,
      UInt32.toNat_ofNat', Nat.mod_eq_of_lt (by omega)]
  · rw [hdev.r, ← UInt32.ofNat_add, Input.get_ofNat, hdev.kept k hk]
  · rw [hst.call] at hp
    obtain ⟨hready, hkilled⟩ := hinv.asleep p target n hp
    exact ⟨hdev.ready_empty_iff.2 hready, by rw [hst.killed, hkilled]⟩

/-- A reader waits; "hj", an erased "j", "i", a newline and C('D') are typed. It
gets the line, and the next call of it 0. Then a line "d" is typed that nobody
reads, and the start of another one. -/
def oneLine : List (Event Nat) :=
  [.read 0 10, .intr [104, 106, ctrl 'H', 105], .intr [13, eof], .resume 0, .read 0 10,
    .intr [100, 13, 101]]

theorem console_reads_line :
    ∃ s fxs, (Sys.init (ι := Nat) ⟨fun _ => 0, 0, 0, 0⟩ fun _ => false).run ring oneLine
        = some (s, fxs)
      ∧ (delivered fxs, s.dev.w - s.dev.r, s.dev.e - s.dev.w) = ([104, 105, newline], 2, 1)
      ∧ ∃ taken ready line, render [] (echoed fxs) = taken ++ ready ++ line
        ∧ delivered fxs = taken.filter (· ≠ eof)
        ∧ fxs.countP Effect.eof = taken.count eof
        ∧ ready.length = (s.dev.w - s.dev.r).toNat ∧ line.length = (s.dev.e - s.dev.w).toNat
        ∧ ready.length + line.length ≤ INPUT_BUF
        ∧ (∀ k, k < ready.length + line.length →
          (ready ++ line)[k]? = some (s.dev.get (s.dev.r + UInt32.ofNat k)))
        ∧ ∀ p target n, s.call p = .reading target n true →
          s.dev.r = s.dev.w ∧ s.killed p = false := by
  have hsome : (((Sys.init (ι := Nat) ⟨fun _ => 0, 0, 0, 0⟩ fun _ => false).run ring
      oneLine).map fun r => (delivered r.2, r.1.dev.w - r.1.dev.r, r.1.dev.e - r.1.dev.w))
      = some ([104, 105, newline], 2, 1) := by
    decide +kernel
  obtain ⟨⟨s, fxs⟩, hrun, hdelivered⟩ := Option.map_eq_some_iff.1 hsome
  exact ⟨s, fxs, hrun, hdelivered, console_reads hrun⟩

end SchoolStuff.Xv6.Console
