import MipsFlow.Proofs.BlockPass

/-!
# Code that needs no more registers

Facts about live registers that were right for some code stay on the safe side for other code that
needs no more. `Lightens` says that the code of a block may be exchanged for such code, in any
program, and not only where a machine runs it: the new code is a reworking of the old one, and what
is live before it was live before the old one, whatever the block ends with. Its commands stem from
those of the old code (`Stems`): they are copies, loaded literals, or have the roles of an old
command, and they name no registers that are new but for the temporaries.

All this holds for all commands, but for the redirecting of a command, which may go wrong for one
that reads its first operand. Those that do not are *direct*, and what stems from them is direct.
-/

namespace MipsFlow

/-! ## Roles and names -/

/-- The registers that the operands of the command name. -/
def Command.names (c : Command) : List Reg := c.args.filterMap Operand.base?

/-- The command names registers of the source only, and does not read its first operand if it writes
one. -/
def Command.isDirect (c : Command) : Bool :=
  (c.form?.all fun form => form.defs.isEmpty || !form.uses.contains 0) &&
    c.names.all fun r => !r.isPseudo

namespace Instr

/-- The roles of the operands, if the instruction is a command that is known. -/
def form? (p : Instr) : Option Form := p.command?.bind Command.form?

/-- The registers that the instruction names. -/
def names (p : Instr) : List Reg := p.command?.elim [] Command.names

/-- The instruction may be redirected if it is a command that writes its first operand. -/
def isDirect (p : Instr) : Bool := p.command?.all Command.isDirect

variable {p : Instr} {c : Command}

theorem form?_of_command (command : p.command? = some c) : p.form? = c.form? := by
  simp [form?, command]

theorem names_of_command (command : p.command? = some c) : p.names = c.names := by
  simp [names, command]

theorem isDirect_iff : p.isDirect = true ↔
    (∀ form, p.form? = some form → form.defs ≠ [] → 0 ∉ form.uses) ∧
      ∀ r ∈ p.names, r.isPseudo = false := by
  unfold isDirect form? names
  cases p.command? with
  | none => simp
  | some c =>
    simp only [Option.all_some, Option.bind_some, Option.elim_some, Command.isDirect,
      Bool.and_eq_true, List.all_eq_true, Bool.not_eq_true']
    refine and_congr_left fun _ => ?_
    cases c.form? with
    | none => simp
    | some form =>
      simp only [Option.all_some, Bool.or_eq_true, List.isEmpty_iff, Bool.not_eq_true',
        Bool.eq_false_iff, ne_eq, List.contains_iff_mem, Option.some.injEq, forall_eq']
      exact or_iff_not_imp_left

end Instr

/-- The instructions of the second list are copies, load literals, or have the roles of instructions
of the first one, and name the same registers or temporaries. -/
structure Stems (a b : List Instr) : Prop where
  forms : ∀ q ∈ b, ∀ form, q.form? = some form →
    form = .unary ∨ form = .define ∨ ∃ p ∈ a, p.form? = some form
  names : ∀ q ∈ b, ∀ r ∈ q.names, r ∈ Reg.scratch ∨ ∃ p ∈ a, r ∈ p.names

namespace Stems

variable {a a' b b' c : List Instr} {p q : Instr} {d : Command}

theorem of_content (old : ∀ q ∈ b, ∃ p ∈ a, p.content = q.content) : Stems a b := by
  refine ⟨fun q member form known => ?_, fun q member r named => ?_⟩
  all_goals
    obtain ⟨p, inside, content⟩ := old q member
    have same := Interpretation.command?_congr content
  · refine Or.inr (Or.inr ⟨p, inside, ?_⟩)
    rw [Instr.form?, same]
    exact known
  · refine Or.inr ⟨p, inside, ?_⟩
    rw [Instr.names, same]
    exact named

theorem refl (code : List Instr) : Stems code code := of_content fun q member => ⟨q, member, rfl⟩

theorem of_map_content (same : a.map Instr.content = b.map Instr.content) : Stems a b := by
  refine of_content fun q member => ?_
  have content : q.content ∈ a.map Instr.content := same ▸ List.mem_map_of_mem member
  obtain ⟨p, inside, isSame⟩ := List.mem_map.1 content
  exact ⟨p, inside, isSame⟩

theorem trans (first : Stems a b) (second : Stems b c) : Stems a c := by
  refine ⟨fun q member form known => ?_, fun q member r named => ?_⟩
  · rcases second.forms q member form known with isCopy | isLiteral | ⟨p, inside, same⟩
    · exact Or.inl isCopy
    · exact Or.inr (Or.inl isLiteral)
    · exact first.forms p inside form same
  · rcases second.names q member r named with isNew | ⟨p, inside, same⟩
    · exact Or.inl isNew
    · exact first.names p inside r same

theorem mono (stems : Stems a b) (more : ∀ p ∈ a, p ∈ a') (fewer : ∀ q ∈ b', q ∈ b) :
    Stems a' b' := by
  refine ⟨fun q member form known => ?_, fun q member r named => ?_⟩
  · refine (stems.forms q (fewer q member) form known).imp_right (Or.imp_right ?_)
    exact fun ⟨p, inside, same⟩ => ⟨p, more p inside, same⟩
  · refine (stems.names q (fewer q member) r named).imp_right ?_
    exact fun ⟨p, inside, same⟩ => ⟨p, more p inside, same⟩

theorem append (first : Stems a b) (second : Stems a b') : Stems a (b ++ b') := by
  refine ⟨fun q member => ?_, fun q member => ?_⟩
  all_goals rcases List.mem_append.1 member with front | back
  · exact first.forms q front
  · exact second.forms q back
  · exact first.names q front
  · exact second.names q back

theorem cons (first : Stems a [q]) (second : Stems a b) : Stems a (q :: b) := append first second

/-- A part stems from the part in its place. -/
theorem around (before after : List Instr) (stems : Stems a b) :
    Stems (before ++ a ++ after) (before ++ b ++ after) := by
  have whole := Stems.refl (before ++ a ++ after)
  refine ((whole.mono (fun _ member => member) ?_).append
    (stems.mono (fun _ inside => ?_) fun _ inside => inside)).append
    (whole.mono (fun _ member => member) ?_)
  all_goals simp_all

/-- What is put in the place of a command may be a copy. -/
theorem copy {x y : Reg} (command : q.command? = some (.copy x y))
    (named : ∀ r, r = x ∨ r = y → r ∈ Reg.scratch ∨ ∃ p ∈ a, r ∈ p.names) : Stems a [q] := by
  refine ⟨fun q' member form known => ?_, fun q' member r isNamed => named r ?_⟩
  all_goals
    obtain rfl := List.mem_singleton.1 member
  · rw [Instr.form?_of_command command, Command.form?_copy, Option.some.injEq] at known
    exact Or.inl known.symm
  · rw [Instr.names_of_command command] at isNamed
    simpa [Command.names, Command.copy, Command.ofOpcode, Operand.base?] using isNamed

/-- What is put in the place of a command may have the same roles. -/
theorem same {d' : Command} (member : p ∈ a) (command : p.command? = some d)
    (command' : q.command? = some d') (form : d'.form? = d.form?)
    (named : ∀ r ∈ d'.names, r ∈ Reg.scratch ∨ ∃ p ∈ a, r ∈ p.names) : Stems a [q] := by
  refine ⟨fun q' isLast form' known => ?_, fun q' isLast r isNamed => named r ?_⟩
  all_goals
    obtain rfl := List.mem_singleton.1 isLast
  · refine Or.inr (Or.inr ⟨p, member, ?_⟩)
    rw [Instr.form?_of_command command, ← form, ← Instr.form?_of_command command']
    exact known
  · rwa [Instr.names_of_command command'] at isNamed

/-- What stems from direct commands is direct. -/
theorem direct (stems : Stems a b) (isDirect : ∀ p ∈ a, p.isDirect = true) :
    ∀ q ∈ b, q.isDirect = true := by
  intro q member
  refine Instr.isDirect_iff.2 ⟨fun form known writes => ?_, fun r named => ?_⟩
  · rcases stems.forms q member form known with rfl | rfl | ⟨p, inside, same⟩
    · decide
    · decide
    · exact (Instr.isDirect_iff.1 (isDirect p inside)).1 form same writes
  · have temporaries : ∀ t ∈ Reg.scratch, t.isPseudo = false := by decide
    rcases stems.names q member r named with isNew | ⟨p, inside, same⟩
    · exact temporaries r isNew
    · exact (Instr.isDirect_iff.1 (isDirect p inside)).2 r same

end Stems

/-! ## Live registers of whole blocks -/

namespace Liveness

variable {reserved out : FactSet Reg} {unresolved : Bool} {p q : Instr} {r : Reg}
variable {rest rest' first second code : List Instr}

/-- Code that does not jump needs the same wherever the block goes. -/
theorem liveIn_of_stays (stays : ∀ p ∈ code, p.isJump = false) :
    liveIn reserved unresolved out code = liveIn reserved false out code := by
  induction code with
  | nil => rfl
  | cons p rest ih =>
    obtain ⟨staysHere, staysLater⟩ := List.forall_mem_cons.1 stays
    rw [liveIn, liveIn, ih staysLater, usesBefore_of_stays staysHere]
    rfl

/-- In a block that jumps at its end only, what is live before a first part is what is live before
it given what is live before the second. -/
theorem liveIn_append_of_last (last : JumpsLast (first ++ second)) :
    liveIn reserved unresolved out (first ++ second) =
      liveIn reserved unresolved (liveIn reserved unresolved out second) first := by
  rcases eq_or_ne second [] with rfl | nonempty
  · rw [List.append_nil]
    rfl
  · obtain ⟨stays, -⟩ := JumpsLast.of_append nonempty last
    induction first with
    | nil => rfl
    | cons p rest ih =>
      obtain ⟨staysHere, staysLater⟩ := List.forall_mem_cons.1 stays
      rw [List.cons_append, liveIn, liveIn, ih last.2 staysLater, usesBefore_of_stays staysHere,
        usesBefore_of_stays staysHere]

end Liveness

/-! ## Lightening -/

/-- Exchanging the first code of a block for the second needs no more registers. -/
structure Lightens (v : View) (code code' : List Instr) : Prop where
  reworked : Reworked code code'
  stems : Stems code code'
  live : JumpsLast code → ∀ r ∈ Liveness.liveIn v.reserved v.unresolved v.liveOut code',
    r ∈ Liveness.liveIn v.reserved v.unresolved v.liveOut code

namespace Lightens

variable {v : View} {a b c : List Instr}

theorem of_content (same : a.map Instr.content = b.map Instr.content) : Lightens v a b :=
  ⟨.same same, .of_map_content same, fun _ r => (liveIn_congr same r).2⟩

theorem refl (code : List Instr) : Lightens v code code := .of_content rfl

theorem trans (first : Lightens v a b) (second : Lightens v b c) : Lightens v a c :=
  ⟨first.reworked.trans second.reworked, first.stems.trans second.stems,
    fun last r live =>
      first.live last r (second.live (first.reworked.jumpsLast last) r live)⟩

/-- A pass that repeats a step lightens a block if every step does. -/
theorem exhaust {step : BlockCode → Option BlockCode}
    (lightens : ∀ block block', step block = some block' → Lightens v block.code block'.code)
    (fuel : Nat) (block : BlockCode) :
    Lightens v block.code (MipsFlow.exhaust step fuel block).code :=
  exhaust_induction (fun a b => Lightens v a.code b.code) (fun a => .refl a.code)
    (fun stepped later => (lightens _ _ stepped).trans later) fuel block

end Lightens

/-- A window of plain commands is exchanged for others that stem from it. -/
structure WindowReworks (window repl : List Instr) : Prop where
  nonempty : window ≠ []
  plain : ∀ p ∈ window, p.isPlain = true
  plain' : ∀ p ∈ repl, p.isPlain = true
  stems : Stems window repl

/-- The new commands of a window need no more than the old ones, whatever is live behind it. -/
structure WindowLightens (window repl : List Instr) : Prop extends WindowReworks window repl where
  live : ∀ {reserved out : FactSet Reg} {r : Reg}, r ∈ Liveness.liveIn reserved false out repl →
    r ∈ Liveness.liveIn reserved false out window

section Windows

variable {v : View} {window repl rest : List Instr}

theorem WindowReworks.reworked (reworks : WindowReworks window repl) (before rest : List Instr) :
    Reworked (before ++ window ++ rest) (before ++ repl ++ rest) :=
  .window before rest reworks.nonempty reworks.plain reworks.plain'

/-- Lightening a window, for what is live behind it, lightens the code around it. -/
theorem WindowReworks.lightens (reworks : WindowReworks window repl) (before : List Instr)
    (live : ∀ r, r ∈ Liveness.liveIn v.reserved false
        (Liveness.liveIn v.reserved v.unresolved v.liveOut rest) repl →
      r ∈ Liveness.liveIn v.reserved false
        (Liveness.liveIn v.reserved v.unresolved v.liveOut rest) window) :
    Lightens v (before ++ window ++ rest) (before ++ repl ++ rest) := by
  have reworked := reworks.reworked before rest
  refine ⟨reworked, reworks.stems.around before rest, fun last r member => ?_⟩
  have last' := reworked.jumpsLast last
  rw [List.append_assoc] at last last' member ⊢
  have split : ∀ {middle : List Instr}, (∀ p ∈ middle, p.isPlain = true) →
      JumpsLast (before ++ (middle ++ rest)) →
      Liveness.liveIn v.reserved v.unresolved v.liveOut (before ++ (middle ++ rest)) =
        Liveness.liveIn v.reserved v.unresolved (Liveness.liveIn v.reserved false
          (Liveness.liveIn v.reserved v.unresolved v.liveOut rest) middle) before := by
    intro middle plain last
    have lastBehind : JumpsLast (middle ++ rest) := by
      rcases eq_or_ne (middle ++ rest) [] with none | some
      · rw [none]
        trivial
      · exact (JumpsLast.of_append some last).2
    rw [Liveness.liveIn_append_of_last last, Liveness.liveIn_append_of_last lastBehind,
      Liveness.liveIn_of_stays fun p inside => Instr.isJump_of_isPlain (plain p inside)]
  rw [split reworks.plain last]
  rw [split reworks.plain' last'] at member
  exact Liveness.liveIn_mono live member

/-- The machine runs the new commands of a window that needs no more. -/
theorem WindowLightens.refits (lightens : WindowLightens window repl)
    (ends : ∀ places s, AgreeOn (Machine.meaning places)
      (Liveness.liveIn v.reserved false v.liveOut rest)
      ((Machine.meaning places).execAll window s) ((Machine.meaning places).execAll repl s))
    (runs : ∀ p ∈ repl, Machine.Runs p) : WindowRefits v window repl rest :=
  .of_plain ends (fun _ => lightens.live) lightens.nonempty lightens.plain lightens.plain' runs

end Windows

end MipsFlow
