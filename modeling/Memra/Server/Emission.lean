import Memra.Lib.Utf8

/-!
# Streaming the text of a burst

`worker.rs`, the speculative arm of `step_session`: the text of a burst goes out at every committed
round (`flushCb`, the engine's `on_commit` callback) and what is left after the burst (`tail`), or all
of it after the burst (`MEMRA_SSE_PER_BURST=1`). A text is its UTF-8 bytes. The tokenizer is
the bytes of each token: `decode_bytes_special` runs over the ids one by one.
-/

namespace Memra

open Lib

/-- The loop of `utf8_delta` over the bytes behind the cursor: the text and how far it got. -/
def utf8Loop (rest : List UInt8) : List UInt8 × ℕ :=
  if rest = [] then ([], 0)
  else
    match he : utf8Error rest with
    | none => (rest, rest.length)
    | some ⟨valid, none⟩ => (rest.take valid, valid)
    | some ⟨valid, some invalid⟩ =>
      let r := utf8Loop (rest.drop (valid + invalid))
      (rest.take valid ++ replacement ++ r.1, valid + invalid + r.2)
termination_by rest.length
decreasing_by
  obtain ⟨h1, h2, -⟩ := utf8Scan_replaced he
  rw [List.length_drop]
  omega

/-- `utf8_delta`: the newly completed text, and the cursor behind it. -/
def utf8Delta (decoded : List UInt8) (emittedBytes : ℕ) : List UInt8 × ℕ :=
  if emittedBytes > decoded.length then ([], emittedBytes)
  else
    let r := utf8Loop (decoded.drop emittedBytes)
    (r.1, emittedBytes + r.2)

/-- `Event::Token`. -/
structure TokenEvent where
  id : ℕ
  text : List UInt8

/-- What a burst is emitted with: the bytes of each token, the end tokens, whether the rollback seam
is set, and which sends find a receiver. -/
structure EmitCtx where
  tokenBytes : ℕ → List UInt8
  eos : List ℕ
  perBurst : Bool
  sends : ℕ → Bool

/-- `decode_bytes_special`. -/
def EmitCtx.decode (c : EmitCtx) (ids : List ℕ) : List UInt8 := ids.flatMap c.tokenBytes

/-- The variables that the callback captures, and the events sent. -/
structure Flush where
  vis : List ℕ
  cursor : ℕ
  eosSeen : Bool := false
  sendOk : Bool := true
  events : List TokenEvent := []

/-- Send the text that is complete after the tokens `ids`, if there is any. -/
def Flush.send (c : EmitCtx) (f : Flush) (ids : List ℕ) (id : ℕ) : Flush :=
  let r := utf8Delta (c.decode ids) f.cursor
  if r.1 = [] then { f with cursor := r.2 }
  else if c.sends f.events.length then
    { f with cursor := r.2, events := f.events ++ [⟨id, r.1⟩] }
  else { f with cursor := r.2, sendOk := false }

/-- The loop of `flush_cb` over a slice: the visible tokens, the last of them, and whether an end
token came. -/
def pushVisible (eos : List ℕ) (vis : List ℕ) (lastId : ℕ) : List ℕ → List ℕ × ℕ × Bool
  | [] => (vis, lastId, false)
  | t :: slice =>
    if t ∈ eos then (vis, lastId, true) else pushVisible eos (vis ++ [t]) t slice

/-- `flush_cb`. -/
def flushCb (c : EmitCtx) (f : Flush) (slice : List ℕ) : Flush :=
  if c.perBurst ∨ f.eosSeen ∨ slice = [] then f
  else
    let r := pushVisible c.eos f.vis 0 slice
    let f := { f with vis := r.1, eosSeen := r.2.2 }
    if f.sendOk then f.send c r.1 r.2.1 else f

/-- The tokens of the burst go to the session, up to an end token: the generated tokens and whether
one stopped it. -/
def acceptBurst (eos : List ℕ) (generated : List ℕ) : List ℕ → List ℕ × Bool
  | [] => (generated, false)
  | tok :: burst =>
    if tok ∈ eos then (generated ++ [tok], true)
    else acceptBurst eos (generated ++ [tok]) burst

/-- A burst's emission: what is kept in the session, the events sent, and whether a send failed. -/
structure Emitted where
  generated : List ℕ
  emittedBytes : ℕ
  events : List TokenEvent
  sendOk : Bool

/-- The emission of a burst that the engine commits in `rounds`, from a session with the tokens
`generated` and the cursor `emittedBytes`. -/
def emitBurst (c : EmitCtx) (generated : List ℕ) (emittedBytes : ℕ) (burst : List ℕ)
    (rounds : List (List ℕ)) : Emitted :=
  let f := rounds.foldl (flushCb c) { vis := generated, cursor := emittedBytes }
  let r := acceptBurst c.eos generated burst
  if f.sendOk then
    let visible := if r.2 then r.1.dropLast else r.1
    let g := f.send c visible (burst.getLast?.getD 0)
    ⟨r.1, g.cursor, g.events, g.sendOk⟩
  else ⟨r.1, f.cursor, f.events, false⟩

/-- The text of the events of a burst. -/
def Emitted.text (e : Emitted) : List UInt8 := e.events.flatMap (·.text)

end Memra
