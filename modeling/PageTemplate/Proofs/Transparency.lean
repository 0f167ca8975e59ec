import PageTemplate.Proofs.Render.Effect
import PageTemplate.Proofs.Render.Textual

/-!
Messages without a translation hook. The body of a message is rendered as without the message around it, but for
placeholders in the place of its named blocks. What is written is then what collapsing and filling in makes of the
pieces that both texts are made of.
-/

namespace PageTemplate.Render

open Run

def SettingsKept (st st' : State) : Prop := st'.world.settings = st.world.settings

namespace SettingsKept

theorem aloof : Aloof SettingsKept where
  trans h h' := h'.trans h
  world _ _ h := h.settings
  views _ _ _ _ _ := rfl
  apart _ _ _ _ _ := rfl
  failures _ _ := rfl

theorem lasting : Lasting SettingsKept :=
  aloof.lasting (fun _ _ => rfl) (fun _ _ => rfl) fun _ _ => .modify fun _ => rfl

end SettingsKept

theorem World.translate_of_hook_none {w : World} {settings : Nat} (hhook : (w.settingsOf settings).hook = none)
    {m : Message} (hfallback : m.fallback ≠ []) :
    w.translate settings m = (fillPlaceholders m.mapping m.fallback, w) := by
  have hempty : m.fallback.isEmpty = false := by simpa using hfallback
  simp [World.translate, translateMessage, hhook, hempty]

theorem run_translate_of_hook_none {frame : Frame} {st : State}
    (hhook : (st.world.settingsOf frame.settings).hook = none) (mapping : Assoc Bytes) {text : Bytes}
    (htext : text ≠ []) :
    (translate frame text mapping text).run st = some (.ok (fillPlaceholders mapping text),
      { st with events := .translated text (fillPlaceholders mapping text) :: st.events }) := by
  have hlanguage : ∃ language, (targetLanguage frame).run st = some (.ok language, st) := by
    rw [targetLanguage, run_get_bind]
    split <;> exact ⟨_, rfl⟩
  obtain ⟨language, hlanguage⟩ := hlanguage
  have hrun : ∀ g : State → Bytes × State, (modifyGet g : Run Bytes).run st = some (.ok (g st).1, (g st).2) :=
    fun _ => rfl
  rw [translate, run_bind, hlanguage]
  simp only [Option.bind_some, hrun]
  rw [World.translate_of_hook_none hhook htext]

theorem run_renderTranslate (frame : Frame) {body : Run Unit} {st message : State} {mapping : Assoc Bytes}
    (hbody : body.run (st.withText {} (some [])) = some (.ok (), message))
    (hhook : (message.world.settingsOf frame.settings).hook = none) (hnamed : message.named = some mapping) :
    ∃ st', (renderTranslate frame [] body).run st = some (.ok (), st') ∧
      st'.out.text = st.out.text ++ fillPlaceholders mapping (Text.collapse message.out.text) := by
  have hcapture : (capture (some []) body).run st =
      some (.ok (message.out.text, some mapping), message.withText st.out st.named) := by
    have hstart : body.run { st with out := {}, named := some [] } = some (.ok (), message) := hbody
    rw [run_capture, hstart, Option.map_some, hnamed]
    rfl
  rw [renderTranslate, run_bind, hcapture]
  simp only [Option.bind_some, List.isEmpty_nil, if_true, Option.getD_some]
  split
  · next hempty =>
    rw [List.isEmpty_iff] at hempty
    refine ⟨_, rfl, ?_⟩
    rw [hempty, fillPlaceholders]
    simp [State.withText]
  · next hempty =>
    rw [List.isEmpty_iff] at hempty
    have hsame : ((message.withText st.out st.named).world.settingsOf frame.settings).hook = none := hhook
    rw [run_bind, run_translate_of_hook_none hsame mapping hempty]
    exact ⟨_, rfl, Output.text_append _ _⟩

/-- Let no hook be set, and let the body of a message without an id render without the message around it. Then the
message is written, and each way to make the text of the body and the message out of the same pieces, of which there is
one, tells what is written: the pieces with single spaces for blank runs outside the blocks, and for a block what was
last rendered under its name, which is its own text if that is the only one. This takes names that can be read back, and
literal text that could not be taken for a placeholder. -/
theorem message_transparent (depth : Nat) (frame : Frame) (body : Node Compiled) (st plain : State)
    (hhook : (st.world.settingsOf frame.settings).hook = none)
    (hbody : (node (toDepth depth) frame body).run (st.withText {} none) = some (.ok (), plain)) :
    ∃ message st' : State,
      (node (toDepth depth) frame body).run (st.withText {} (some [])) = some (.ok (), message) ∧
      (node (toDepth depth) frame (.translate [] body)).run st = some (.ok (), st') ∧
      (∃ pieces parts, Told pieces plain.out message.out parts ∧ message.named = some (.ofEntries parts)) ∧
      ∀ pieces parts, Told pieces plain.out message.out parts → message.named = some (.ofEntries parts) →
        st'.out.text = st.out.text ++
          fillPlaceholders (.ofEntries parts) (Text.collapse (pieces.flatMap Piece.shown)) ∧
        ((∀ b ∈ pieces.filterMap Piece.block?, Readable b.1) → Undisturbed (parts.map (·.1)) (collapsed pieces) →
          st'.out.text = st.out.text ++
            (collapsed pieces).flatMap (Mark.bytes fun name _ => filled (.ofEntries parts) name) ∧
          ((∀ b ∈ parts, ∀ b' ∈ parts, b'.1 = b.1 → b'.2 = b.2) →
            st'.out.text = st.out.text ++ (collapsed pieces).flatMap (Mark.bytes fun _ text => text))) := by
  -- The body ends in both runs alike, and the one within the message gives the pieces.
  rcases Transparent.pervasive.node depth frame body [] st with hnone | ⟨e, hplain, hshown, htold⟩
  · rw [hnone] at hbody
    cases hbody
  rw [hplain] at hbody
  obtain ⟨hresult, rfl⟩ : e.result = .ok () ∧ e.state.withText (Output.followedBy {} e.plain) none = plain := by
    simpa using hbody
  obtain ⟨pieces, hpieces⟩ := htold hresult
  have hmessage := hshown {} []
  rw [hresult, Output.empty_followedBy] at hmessage
  have hsettings := SettingsKept.lasting.pervasive.node depth frame body [] _ _ _ hmessage
  have hstays : (e.state.world.settingsOf frame.settings).hook = none := by
    rw [World.settingsOf, show e.state.world.settings = st.world.settings from hsettings]
    exact hhook
  obtain ⟨st', htranslate, hout⟩ := run_renderTranslate frame hmessage hstays rfl
  have hempty : Output.followedBy {} e.plain = e.plain := Output.empty_followedBy e.plain
  refine ⟨_, st', hmessage, htranslate, ⟨pieces, e.parts, ?_, rfl⟩, fun pieces parts htold hnamed => ?_⟩
  · rw [hempty]
    exact hpieces
  have hmapping : Assoc.insertAll [] e.parts = Assoc.ofEntries parts := Option.some.inj hnamed
  have hshown : e.shown.text = pieces.flatMap Piece.shown := htold.shown_eq
  have hwritten : st'.out.text = st.out.text ++
      fillPlaceholders (.ofEntries parts) (Text.collapse (pieces.flatMap Piece.shown)) := by
    rw [hout, hmapping, ← hshown]
    rfl
  refine ⟨hwritten, fun hnames hundisturbed => ?_⟩
  have hfilled := fillPlaceholders_collapse hnames (hundisturbed.mono fun _ => Assoc.mem_keys_ofEntries.1)
  refine ⟨by rw [hwritten, hfilled], fun hone => ?_⟩
  rw [hwritten, hfilled]
  congr 1
  refine List.flatMap_congr fun m hm => ?_
  cases m with
  | glyph g => rfl
  | block name text =>
    have hmem : (name, text) ∈ parts := htold.blocks.mem (mem_collapsed hm)
    exact filled_ofEntries hmem fun b hb heq => hone _ hmem b hb heq

theorem message_transparent_with_block :
    let n := utf8 "n"
    let body : Node Compiled :=
      .sequence [.text (utf8 "  a \n b "), .name n (.text (utf8 " X  Y ")), .text (utf8 " c  ")]
    let st : State := { world := {}, out := ⟨[utf8 "<p>"]⟩ }
    ∃ st', (node (toDepth 0) default (.translate [] body)).run st = some (.ok (), st') ∧
      st'.out.text = utf8 "<p>a b  X  Y  c" := by
  intro n body st
  let pieces : List Piece := [.literal (utf8 "  a \n b "), .block n (utf8 " X  Y "), .literal (utf8 " c  ")]
  obtain ⟨message, st', hmessage, hrun, _, hall⟩ := message_transparent 0 default body st _ rfl rfl
  cases hmessage
  have htold := hall pieces [(n, utf8 " X  Y ")] ⟨by decide, by decide, by decide⟩ rfl
  have hreadable : ∀ b ∈ pieces.filterMap Piece.block?, Readable b.1 := by decide +kernel
  have hundisturbed : Undisturbed [n] (collapsed pieces) := by decide +kernel
  refine ⟨st', hrun, ?_⟩
  rw [(htold.2 hreadable hundisturbed).2 (by decide)]
  decide +kernel

/-- Where names cannot be read back, literal text could be a placeholder, or a name is used twice, something else is
written for the blocks. -/
theorem block_text_lost :
    let n := utf8 "n"
    let written (body : List (Node Compiled)) : Option Bytes :=
      ((node (toDepth 0) default (.translate [] (.sequence body))).run { world := {} }).map (·.2.out.text)
    let block (name text : Bytes) : Node Compiled := .name name (.text text)
    written [block n (utf8 "1"), block n (utf8 "2")] = some (utf8 "22") ∧
      written [.text (placeholder n ++ utf8 " "), block n (utf8 "A")] = some (utf8 "A A") ∧
      written [.text placeholderStart, block n (utf8 "A")] = some (placeholderStart ++ placeholder n) ∧
      written [block (utf8 "m  n") (utf8 "A")] = some (placeholder (utf8 "m n")) ∧
      written [block (utf8 "m\x7dn") (utf8 "A")] = some (placeholder (utf8 "m\x7dn")) := by
  decide +kernel

end PageTemplate.Render
