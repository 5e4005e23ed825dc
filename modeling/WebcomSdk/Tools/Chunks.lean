import WebcomSdk.Tools.TokenBuffers

/-!
A text fed in pieces. `fsm_feed` leaves a chunk at the first unexpected
character, but nothing keeps the next call from going on in the state in which
that character was met.
-/

namespace WebcomSdk.Tools

open WebcomSdk.Datasync WebcomSdk.Cache

section Law

variable {S A U : Type*} {fsm : S → FsmStateInfos S A} {exec : A → UInt8 → U → Option U}
  {f : Fsm S U}

/-- The cuts do not matter before the chunk with the first unexpected character,
where the whole text stops. -/
theorem feedChunks_cases (chunks : List Bytes) (hps : f.ps = .parsing) :
    feedChunks fsm exec f chunks = fsmFeed fsm exec f chunks.flatten ∨
      ∃ pre post f₁, chunks = pre ++ post ∧ feedChunks fsm exec f pre = some f₁ ∧
        f₁.ps = .unexpectedInput ∧ fsmFeed fsm exec f chunks.flatten = some f₁ := by
  induction chunks generalizing f with
  | nil => exact .inl rfl
  | cons chunk chunks ih =>
      rw [List.flatten_cons, fsmFeed_append hps, feedChunks]
      cases hchunk : fsmFeed fsm exec f chunk with
      | none => exact .inl rfl
      | some f₁ =>
          rw [Option.bind_some, Option.bind_some]
          split
          next hps₁ =>
            rcases ih hps₁ with hsame | ⟨pre, post, f₂, rfl, hpre, hps₂, hwhole⟩
            · exact .inl hsame
            · exact .inr ⟨chunk :: pre, post, f₂, rfl, by rw [feedChunks, hchunk]; exact hpre,
                hps₂, hwhole⟩
          next hps₁ =>
            have hps₁ : f₁.ps = .unexpectedInput :=
              (ps_fsmFeed hchunk).resolve_left fun h => hps₁ (h.trans hps)
            exact .inr ⟨[chunk], chunks, f₁, rfl, by rw [feedChunks, hchunk]; rfl, hps₁, rfl⟩

end Law

/-! ### The shell -/

/-- What the user sees of a parse: the commands and the result. -/
def WcshFsm.outcome (f : WcshFsm) : List (List Bytes) × ParseResult := (f.user.commands, f.ps)

/-- The transition hands no command over and its writes fall into the arrays. -/
def WcshLens.Quiet (lens : WcshLens) (a : WcshAction) : Prop := lens.Fits a ∧ ¬ lens.Completes a

instance (lens : WcshLens) : DecidablePred lens.Quiet :=
  fun a => inferInstanceAs (Decidable (lens.Fits a ∧ ¬ lens.Completes a))

/-- From the state `f` on, the chunks reach no end of a command with a token
stored, and no full array. -/
def QuietFrom (f : WcshFsm) (chunks : List Bytes) : Prop :=
  (feedChunks wcshParseScript (wcshExecLens WcshLens.Quiet) (f.withUser f.user.lens) chunks).isSome

instance (f : WcshFsm) (chunks : List Bytes) : Decidable (QuietFrom f chunks) :=
  inferInstanceAs (Decidable (_ = true))

theorem feedChunks_of_quiet {f : WcshFsm} {chunks : List Bytes} (h : QuietFrom f chunks) :
    ∃ f', wcshFeedChunks f chunks = some f' ∧ f'.user.commands = f.user.commands := by
  obtain ⟨g, hg⟩ := Option.isSome_iff_exists.mp h
  obtain ⟨f', hf', ⟨-, hcommands⟩, -⟩ := feedChunks_simulates (f := f)
    (R := fun user lens => user.lens = lens ∧ user.commands = f.user.commands)
    (fun a c user lens lens' hR hexec => by
      obtain ⟨rfl, hcommands⟩ := hR
      obtain ⟨⟨hfits, hquiet⟩, rfl⟩ := execLens_eq_some.mp hexec
      obtain ⟨user', huser'⟩ := execAction_of_fits c hfits
      obtain ⟨-, hlens, more, hmore, hnil⟩ := execAction_eq_some huser'
      refine ⟨user', huser', hlens, ?_⟩
      rw [hmore, hnil.mpr hquiet, List.append_nil, hcommands])
    ⟨rfl, rfl⟩ rfl hg
  exact ⟨f', hf', hcommands⟩

theorem commands_grow {f f' : WcshFsm} {chunks : List Bytes}
    (h : wcshFeedChunks f chunks = some f') : f.user.commands <+: f'.user.commands := by
  refine feedChunks_keeps (P := fun user => f.user.commands <+: user.commands) ?_ List.prefix_rfl h
  intro a c user user' hgrow hexec
  obtain ⟨-, -, more, hmore, -⟩ := execAction_eq_some hexec
  rw [hmore]
  exact hgrow.trans (List.prefix_append _ _)

theorem eq_of_prefixes {a b : List (List Bytes)} (hab : a <+: b) (hba : b <+: a) : a = b :=
  hab.eq_of_length (le_antisymm hab.length_le hba.length_le)

/-- A run that hands nothing over goes through no end of a command. -/
theorem quiet_of_feedChunks {f f' : WcshFsm} {chunks : List Bytes}
    (h : wcshFeedChunks f chunks = some f') (hcommands : f'.user.commands = f.user.commands) :
    QuietFrom f chunks := by
  have hexec : ∀ a c (user user' : WcshCmdParse), user.commands = f.user.commands →
      wcshExecAction a c user = some user' → user'.commands = f.user.commands →
      wcshExecLens WcshLens.Quiet a c user.lens = some user'.lens := by
    intro a c user user' hstart hexec hend
    obtain ⟨hfits, hlens, more, hmore, hnil⟩ := execAction_eq_some hexec
    rw [hend, hstart, List.self_eq_append_right] at hmore
    exact execLens_eq_some.mpr ⟨⟨hfits, hnil.mp hmore⟩, hlens⟩
  have hpart : ∀ part, FedOf part chunks →
      ∃ f₁, wcshFeedChunks f part = some f₁ ∧ f₁.user.commands = f.user.commands := by
    rintro part ⟨pre, cut, rest, post, rfl, rfl⟩
    rw [wcshFeedChunks, feedChunks_append] at h
    obtain ⟨f₁, hpre, h⟩ := Option.bind_eq_some_iff.mp h
    obtain ⟨f₂, hchunk, hpost⟩ := Option.bind_eq_some_iff.mp h
    obtain ⟨f₃, hcut, hrest⟩ := fsmFeed_prefix hchunk
    have hpart : wcshFeedChunks f (pre ++ [cut]) = some f₃ := by
      rw [wcshFeedChunks, feedChunks_append, hpre, Option.bind_some, feedChunks, hcut]
      rfl
    have hlater : f₃.user.commands <+: f'.user.commands := by
      rcases hrest with hrest | rfl
      · have hfed : wcshFeedChunks f₃ (rest :: post) = some f' := by
          rw [wcshFeedChunks, feedChunks, hrest]
          exact hpost
        exact commands_grow hfed
      · exact commands_grow hpost
    rw [hcommands] at hlater
    exact ⟨f₃, hpart, eq_of_prefixes hlater (commands_grow hpart)⟩
  obtain ⟨f₁, -, hmap⟩ := feedChunks_maps hexec hpart
  exact Option.isSome_iff_exists.mpr ⟨_, hmap⟩

/-- After an unexpected character every call reports an error, and the machine goes
on all the same. -/
theorem wcshChunkEval_reports {f f' : WcshFsm} {buf : Bytes} {error : Bool}
    (hps : f.ps = .unexpectedInput) (h : wcshChunkEval f buf = some (f', error)) :
    error = true ∧ f'.ps = .unexpectedInput ∧
      wcshFeed f (if buf = [] then [10] else buf) = some f' := by
  have hkept : ∀ {buf : Bytes} {f₁ : WcshFsm}, wcshFeed f buf = some f₁ →
      f₁.ps = .unexpectedInput := by
    intro buf f₁ hfeed
    rcases ps_fsmFeed hfeed with hsame | hmet
    · exact hsame.trans hps
    · exact hmet
  have hbad : ParseResult.unexpectedInput ≠ .parsing := by decide
  rw [wcshChunkEval] at h
  by_cases hnil : buf = []
  · rw [if_neg (by simp [hnil])] at h
    obtain ⟨f₁, hfeed, heq⟩ := Option.map_eq_some_iff.mp h
    rw [if_pos (by rw [hkept hfeed]; exact hbad)] at heq
    obtain ⟨rfl, rfl⟩ := Prod.mk.inj heq
    exact ⟨rfl, hkept hfeed, by rw [if_pos hnil, hfeed]⟩
  · rw [if_pos (List.length_pos_of_ne_nil hnil)] at h
    obtain ⟨f₁, hfeed, heq⟩ := Option.map_eq_some_iff.mp h
    obtain ⟨rfl, rfl⟩ := Prod.mk.inj heq
    refine ⟨?_, hkept hfeed, by rw [if_neg hnil, hfeed]⟩
    rw [hkept hfeed]
    exact decide_eq_true hbad

end WebcomSdk.Tools
