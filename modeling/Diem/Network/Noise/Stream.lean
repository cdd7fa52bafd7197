import Diem.Crypto.Noise.Agreement
import Diem.Theory.Runs

/-!
# The Noise stream

`NoiseStream` of `network/src/noise/stream.rs`: after the handshake a socket
carries Noise messages, each framed by its length as a big-endian `u16`.
`poll_write` buffers the caller's bytes, `poll_flush` (or a full buffer)
encrypts them into one frame and writes it, and `poll_read` reads a frame,
decrypts it and hands its bytes out, resuming wherever the socket returned
`Pending`.

Each `poll_*` is its `loop` over the read or write state, one state per round;
the rounds of a call are bounded by the longest path through the states
(`READ_ROUNDS`, `WRITE_ROUNDS`), so the bound never stops a call. The socket is
one end of an in-order byte pipe (`Pipe`), and each call reads the
environment's next reply: `0` is `Pending`, `n` lets the socket move up to `n`
bytes. A read of an empty pipe is `Pending`, or `Ok(0)` once the writer has
closed its end.

An empty `poll_write` is taken as `Ok(0)` (`pollWrite_nil`), and the
`poll_flush` after it seals the empty buffer into a frame of the tag alone
(`pollFlush_empty`), which the reader decrypts to no bytes and hands out as
`Ok(0)` (`pollRead_tagOnly`). So between any mirrored sessions the reader sees
the end of the stream while the writer's socket is open
(**`emptyWrite_reads_eof`**).
-/

namespace Diem.Network.Stream

open Noise

variable {κ : Type} (P : Primitives κ)

/-- `Poll`. -/
inductive Poll (α : Type) where
  /-- `Poll::Pending`. -/
  | pending
  /-- `Poll::Ready`. -/
  | ready (a : α)
  deriving DecidableEq, Repr

/-- The `io::Error`s of the stream. -/
inductive IoError where
  /-- `io::ErrorKind::UnexpectedEof`. -/
  | UnexpectedEof
  /-- `io::ErrorKind::WriteZero`. -/
  | WriteZero
  /-- A write on the socket after its end was closed. -/
  | BrokenPipe
  /-- `InvalidData`, `DecryptionError: {}`. -/
  | DecryptionError (e : NoiseError)
  /-- `InvalidData`, `EncryptionError: {}`. -/
  | EncryptionError (e : NoiseError)
  deriving DecidableEq, Repr

/-- `noise::decrypted_len`. -/
def decryptedLen (ciphertextLen : ℕ) : ℕ := ciphertextLen - AES_GCM_TAGLEN

/-- `MAX_WRITE_BUFFER_LENGTH`. -/
def MAX_WRITE_BUFFER_LENGTH : ℕ := decryptedLen MAX_SIZE_NOISE_MSG

/-- `buf[offset..offset + bytes.len()].copy_from_slice(bytes)`. -/
def writeAt (buf : List UInt8) (offset : ℕ) (bytes : List UInt8) : List UInt8 :=
  buf.take offset ++ bytes ++ buf.drop (offset + bytes.length)

/-- `u16::from_be_bytes`. -/
def fromBeBytes (buf : List UInt8) : ℕ := buf.foldl (fun acc b => 256 * acc + b.toNat) 0

/-- `u16::to_be_bytes`. -/
def u16ToBeBytes (n : ℕ) : List UInt8 := [UInt8.ofNat (n / 256), UInt8.ofNat n]

/-- `ReadState`. -/
inductive ReadState where
  /-- `Init`. -/
  | Init
  /-- `ReadFrameLen`: the two bytes of the length and how many are read. -/
  | ReadFrameLen (buf : List UInt8) (offset : ℕ)
  /-- `ReadFrame`. -/
  | ReadFrame (frameLen offset : ℕ)
  /-- `CopyDecryptedFrame`. -/
  | CopyDecryptedFrame (decryptedLen offset : ℕ)
  /-- `Eof(Ok(()))` when `expected`, `Eof(Err(()))` otherwise. -/
  | Eof (expected : Bool)
  /-- `DecryptionError`. -/
  | DecryptionError (e : NoiseError)
  deriving DecidableEq, Repr

/-- `WriteState`. -/
inductive WriteState where
  /-- `Init`. -/
  | Init
  /-- `BufferData`. -/
  | BufferData (offset : ℕ)
  /-- `WriteFrameLen`. -/
  | WriteFrameLen (frameLen : ℕ) (buf : List UInt8) (offset : ℕ)
  /-- `WriteEncryptedFrame`. -/
  | WriteEncryptedFrame (frameLen offset : ℕ)
  /-- `Flush`. -/
  | Flush
  /-- `Eof`. -/
  | Eof
  /-- `EncryptionError`. -/
  | EncryptionError (e : NoiseError)
  deriving DecidableEq, Repr

/-- `NoiseStream`, but its socket. -/
structure NoiseStream where
  /-- `session`. -/
  session : NoiseSession
  /-- `buffers.read_buffer`. -/
  readBuffer : List UInt8
  /-- `buffers.write_buffer`. -/
  writeBuffer : List UInt8
  /-- `read_state`. -/
  readState : ReadState
  /-- `write_state`. -/
  writeState : WriteState

/-- `NoiseStream::new`. -/
def NoiseStream.new (session : NoiseSession) : NoiseStream := ⟨session, [], [], .Init, .Init⟩

/-! ## The socket -/

/-- The byte pipe between the writer's socket and the reader's: the bytes in
flight, in order, and whether the writer closed its end. -/
structure Pipe where
  /-- Written and not yet read. -/
  bytes : List UInt8
  /-- The writer's `poll_close` went through. -/
  closed : Bool
  deriving DecidableEq, Repr

/-- The writer's `socket.poll_write(buf)` under the reply `reply`. -/
def socketPollWrite (pipe : Pipe) (buf : List UInt8) (reply : ℕ) : Poll (Except IoError ℕ) × Pipe :=
  if pipe.closed then (.ready (.error .BrokenPipe), pipe)
  else if reply = 0 then (.pending, pipe)
  else (.ready (.ok (min reply buf.length)), { pipe with bytes := pipe.bytes ++ buf.take reply })

/-- The reader's `socket.poll_read(buf)` into `len` bytes under the reply `reply`. -/
def socketPollRead (pipe : Pipe) (len reply : ℕ) : Poll (Except IoError (List UInt8)) × Pipe :=
  if pipe.bytes = [] then (if pipe.closed then (.ready (.ok []), pipe) else (.pending, pipe))
  else if reply = 0 then (.pending, pipe)
  else (.ready (.ok (pipe.bytes.take (min reply len))), { pipe with bytes := pipe.bytes.drop (min reply len) })

/-- The writer's `socket.poll_flush()` under the reply `reply`. -/
def socketPollFlush (reply : ℕ) : Poll (Except IoError Unit) := if reply = 0 then .pending else .ready (.ok ())

/-! ## The helpers -/

/-- `poll_write_all` of `buf` from `offset`: the result, the offset reached,
the pipe and the replies left. -/
def pollWriteAll (buf : List UInt8) : ℕ → Pipe → List ℕ → Poll (Except IoError Unit) × ℕ × Pipe × List ℕ
  | offset, pipe, [] => (.pending, offset, pipe, [])
  | offset, pipe, reply :: replies =>
    match socketPollWrite pipe (buf.drop offset) reply with
    | (.pending, pipe) => (.pending, offset, pipe, replies)
    | (.ready (.error e), pipe) => (.ready (.error e), offset, pipe, replies)
    | (.ready (.ok n), pipe) =>
      if n = 0 then (.ready (.error .WriteZero), offset, pipe, replies)
      else if offset + n = buf.length then (.ready (.ok ()), offset + n, pipe, replies)
      else pollWriteAll buf (offset + n) pipe replies

/-- `poll_read_exact` into the first `len` bytes of `buf` from `offset`: the
result, the buffer and offset reached, the pipe and the replies left. -/
def pollReadExact (len : ℕ) : List UInt8 → ℕ → Pipe → List ℕ →
    Poll (Except IoError Unit) × List UInt8 × ℕ × Pipe × List ℕ
  | buf, offset, pipe, [] => (.pending, buf, offset, pipe, [])
  | buf, offset, pipe, reply :: replies =>
    match socketPollRead pipe (len - offset) reply with
    | (.pending, pipe) => (.pending, buf, offset, pipe, replies)
    | (.ready (.error e), pipe) => (.ready (.error e), buf, offset, pipe, replies)
    | (.ready (.ok bytes), pipe) =>
      if bytes.length = 0 then (.ready (.error .UnexpectedEof), buf, offset, pipe, replies)
      else if offset + bytes.length = len then
        (.ready (.ok ()), writeAt buf offset bytes, offset + bytes.length, pipe, replies)
      else pollReadExact len (writeAt buf offset bytes) (offset + bytes.length) pipe replies

/-- `poll_read_u16frame_len`: `Ok(None)` is a graceful end of the stream
before the first byte of a length. -/
def pollReadU16frameLen (buf : List UInt8) (offset : ℕ) (pipe : Pipe) (replies : List ℕ) :
    Poll (Except IoError (Option ℕ)) × List UInt8 × ℕ × Pipe × List ℕ :=
  match pollReadExact 2 buf offset pipe replies with
  | (.pending, rest) => (.pending, rest)
  | (.ready (.ok ()), buf, rest) => (.ready (.ok (some (fromBeBytes buf))), buf, rest)
  | (.ready (.error e), buf, offset, rest) =>
    if offset = 0 ∧ e = .UnexpectedEof then (.ready (.ok none), buf, offset, rest)
    else (.ready (.error e), buf, offset, rest)

/-! ## Reading -/

/-- What a round of a poll's loop does: go on from a new state, or return. -/
inductive Round (α σ : Type) where
  /-- The loop goes on. -/
  | next (s : σ)
  /-- The poll returns. -/
  | done (result : Poll α) (s : σ)

/-- The state a poll runs on: the stream, its pipe, the replies left. -/
abbrev Polling := NoiseStream × Pipe × List ℕ

/-- One round of the `loop` of `poll_read` into a buffer of `len` bytes. -/
def pollReadRound (len : ℕ) : Polling → Round (Except IoError (List UInt8)) Polling
  | (s, pipe, replies) =>
    match s.readState with
    | .Init => .next ({ s with readState := .ReadFrameLen [0, 0] 0 }, pipe, replies)
    | .ReadFrameLen buf offset =>
      match pollReadU16frameLen buf offset pipe replies with
      | (.pending, buf, offset, pipe, replies) =>
        .done .pending ({ s with readState := .ReadFrameLen buf offset }, pipe, replies)
      | (.ready (.ok (some frameLen)), _, _, pipe, replies) =>
        if frameLen = 0 then .next ({ s with readState := .Eof false }, pipe, replies)
        else .next ({ s with readState := .ReadFrame frameLen 0 }, pipe, replies)
      | (.ready (.ok none), _, _, pipe, replies) => .next ({ s with readState := .Eof true }, pipe, replies)
      | (.ready (.error e), buf, offset, pipe, replies) =>
        let readState := if e = .UnexpectedEof then .Eof false else .ReadFrameLen buf offset
        .done (.ready (.error e)) ({ s with readState := readState }, pipe, replies)
    | .ReadFrame frameLen offset =>
      match pollReadExact frameLen s.readBuffer offset pipe replies with
      | (.pending, readBuffer, offset, pipe, replies) =>
        .done .pending ({ s with readBuffer := readBuffer, readState := .ReadFrame frameLen offset }, pipe, replies)
      | (.ready (.ok ()), readBuffer, _, pipe, replies) =>
        match NoiseSession.readMessageInPlace P s.session (readBuffer.take frameLen) with
        | (session, .ok decrypted) =>
          .next ({ s with session := session, readBuffer := writeAt readBuffer 0 decrypted,
                          readState := .CopyDecryptedFrame decrypted.length 0 }, pipe, replies)
        | (session, .error e) =>
          .next ({ s with session := session, readBuffer := readBuffer, readState := .DecryptionError e }, pipe, replies)
      | (.ready (.error e), readBuffer, offset, pipe, replies) =>
        let readState := if e = .UnexpectedEof then .Eof false else .ReadFrame frameLen offset
        .done (.ready (.error e)) ({ s with readBuffer := readBuffer, readState := readState }, pipe, replies)
    | .CopyDecryptedFrame decryptedLen offset =>
      let bytesToCopy := min (decryptedLen - offset) len
      let readState := if offset + bytesToCopy = decryptedLen then .Init
        else .CopyDecryptedFrame decryptedLen (offset + bytesToCopy)
      .done (.ready (.ok ((s.readBuffer.drop offset).take bytesToCopy))) ({ s with readState := readState }, pipe, replies)
    | .Eof true => .done (.ready (.ok [])) (s, pipe, replies)
    | .Eof false => .done (.ready (.error .UnexpectedEof)) (s, pipe, replies)
    | .DecryptionError e => .done (.ready (.error (.DecryptionError e))) (s, pipe, replies)

/-- A poll's `loop`, for at most `rounds` rounds. -/
def runRounds {α : Type} (round : Polling → Round α Polling) : ℕ → Polling → Poll α × Polling
  | 0, p => (.pending, p)
  | rounds + 1, p =>
    match round p with
    | .next p => runRounds round rounds p
    | .done result p => (result, p)

/-- The rounds of one `poll_read`: `Init`, the length, the frame, the copy. -/
def READ_ROUNDS : ℕ := 4

/-- `poll_read` into a buffer of `len` bytes: the bytes read into it. -/
def pollRead (len : ℕ) (p : Polling) : Poll (Except IoError (List UInt8)) × Polling :=
  runRounds (pollReadRound P len) READ_ROUNDS p

/-! ## Writing -/

/-- One round of the `loop` of `poll_write_or_flush`, for `poll_write(buf)`
when `buf` is given and for `poll_flush` when it is not. -/
def pollWriteOrFlushRound (buf : Option (List UInt8)) : Polling → Round (Except IoError (Option ℕ)) Polling
  | (s, pipe, replies) =>
    match s.writeState with
    | .Init =>
      match buf with
      | some _ => .next ({ s with writeState := .BufferData 0 }, pipe, replies)
      | none => .done (.ready (.ok none)) (s, pipe, replies)
    | .BufferData offset =>
      let bytesToCopy := match buf with
        | some buf => min (MAX_WRITE_BUFFER_LENGTH - offset) buf.length
        | none => 0
      let writeBuffer := match buf with
        | some buf => writeAt s.writeBuffer offset (buf.take bytesToCopy)
        | none => s.writeBuffer
      let offset := offset + bytesToCopy
      let bytesBuffered := buf.map fun _ => bytesToCopy
      let s := { s with writeBuffer := writeBuffer, writeState := .BufferData offset }
      if buf.isNone ∨ offset = MAX_WRITE_BUFFER_LENGTH then
        match NoiseSession.writeMessageInPlace P s.session (s.writeBuffer.take offset) with
        | .ok (session, ciphertext, authenticationTag) =>
          let frameLen := encryptedLen offset
          let s := { s with session := session, writeBuffer := writeAt s.writeBuffer 0 (ciphertext ++ authenticationTag),
                            writeState := .WriteFrameLen frameLen (u16ToBeBytes frameLen) 0 }
          match bytesBuffered with
          | some bytesBuffered => .done (.ready (.ok (some bytesBuffered))) (s, pipe, replies)
          | none => .next (s, pipe, replies)
        | .error e =>
          .done (.ready (.error (.EncryptionError e))) ({ s with writeState := .EncryptionError e }, pipe, replies)
      else .done (.ready (.ok bytesBuffered)) (s, pipe, replies)
    | .WriteFrameLen frameLen lenBuf offset =>
      match pollWriteAll lenBuf offset pipe replies with
      | (.pending, offset, pipe, replies) =>
        .done .pending ({ s with writeState := .WriteFrameLen frameLen lenBuf offset }, pipe, replies)
      | (.ready (.ok ()), _, pipe, replies) => .next ({ s with writeState := .WriteEncryptedFrame frameLen 0 }, pipe, replies)
      | (.ready (.error e), offset, pipe, replies) =>
        let writeState := if e = .WriteZero then .Eof else .WriteFrameLen frameLen lenBuf offset
        .done (.ready (.error e)) ({ s with writeState := writeState }, pipe, replies)
    | .WriteEncryptedFrame frameLen offset =>
      match pollWriteAll (s.writeBuffer.take frameLen) offset pipe replies with
      | (.pending, offset, pipe, replies) =>
        .done .pending ({ s with writeState := .WriteEncryptedFrame frameLen offset }, pipe, replies)
      | (.ready (.ok ()), _, pipe, replies) => .next ({ s with writeState := .Flush }, pipe, replies)
      | (.ready (.error e), offset, pipe, replies) =>
        let writeState := if e = .WriteZero then .Eof else .WriteEncryptedFrame frameLen offset
        .done (.ready (.error e)) ({ s with writeState := writeState }, pipe, replies)
    | .Flush =>
      match replies with
      | [] => .done .pending (s, pipe, [])
      | reply :: replies =>
        match socketPollFlush reply with
        | .pending => .done .pending (s, pipe, replies)
        | .ready (.error e) => .done (.ready (.error e)) (s, pipe, replies)
        | .ready (.ok ()) => .next ({ s with writeState := .Init }, pipe, replies)
    | .Eof => .done (.ready (.error .WriteZero)) (s, pipe, replies)
    | .EncryptionError e => .done (.ready (.error (.EncryptionError e))) (s, pipe, replies)

/-- The rounds of one `poll_write_or_flush`: the rest of a frame (its length,
its bytes, the flush), then `Init` and `BufferData`, and a frame of its own
for a flush. -/
def WRITE_ROUNDS : ℕ := 5

/-- `poll_write_or_flush`. -/
def pollWriteOrFlush (buf : Option (List UInt8)) (p : Polling) : Poll (Except IoError (Option ℕ)) × Polling :=
  runRounds (pollWriteOrFlushRound P buf) WRITE_ROUNDS p

/-- `poll_write`: the number of bytes taken from `buf`. The `unreachable!()`
on a flush result is kept as the panic it is, `none`. -/
def pollWrite (buf : List UInt8) (p : Polling) : Option (Poll (Except IoError ℕ)) × Polling :=
  match pollWriteOrFlush P (some buf) p with
  | (.pending, p) => (some .pending, p)
  | (.ready (.error e), p) => (some (.ready (.error e)), p)
  | (.ready (.ok (some n)), p) => (some (.ready (.ok n)), p)
  | (.ready (.ok none), p) => (none, p)

/-- `poll_flush`, with its `unreachable!()` as `none`. -/
def pollFlush (p : Polling) : Option (Poll (Except IoError Unit)) × Polling :=
  match pollWriteOrFlush P none p with
  | (.pending, p) => (some .pending, p)
  | (.ready (.error e), p) => (some (.ready (.error e)), p)
  | (.ready (.ok none), p) => (some (.ready (.ok ())), p)
  | (.ready (.ok (some _)), p) => (none, p)

/-! ## Two streams over one pipe -/

/-- A writer's stream and a reader's stream joined by a pipe. -/
structure Channel where
  /-- The stream that writes. -/
  writer : NoiseStream
  /-- The stream that reads. -/
  reader : NoiseStream
  /-- From the writer's socket to the reader's. -/
  pipe : Pipe

/-- What one side of the channel calls, with the replies its socket gets. -/
inductive Event where
  /-- The writer's `poll_write(buf)`. -/
  | write (buf : List UInt8) (replies : List ℕ)
  /-- The writer's `poll_flush()`. -/
  | flush (replies : List ℕ)
  /-- The writer's `poll_close()`, which closes its socket. -/
  | close
  /-- The reader's `poll_read` into a buffer of `len` bytes. -/
  | read (len : ℕ) (replies : List ℕ)

/-- What a call returns; `none` is a panic. -/
inductive Answer where
  /-- From `poll_write`. -/
  | written (result : Option (Poll (Except IoError ℕ)))
  /-- From `poll_flush`. -/
  | flushed (result : Option (Poll (Except IoError Unit)))
  /-- From `poll_close`. -/
  | closed
  /-- From `poll_read`. -/
  | read (result : Poll (Except IoError (List UInt8)))

/-- One call on the channel. -/
def step (c : Channel) : Event → Answer × Channel
  | .write buf replies =>
    let (result, writer, pipe, _) := pollWrite P buf (c.writer, c.pipe, replies)
    (.written result, { c with writer := writer, pipe := pipe })
  | .flush replies =>
    let (result, writer, pipe, _) := pollFlush P (c.writer, c.pipe, replies)
    (.flushed result, { c with writer := writer, pipe := pipe })
  | .close => (.closed, { c with pipe := { c.pipe with closed := true } })
  | .read len replies =>
    let (result, reader, pipe, _) := pollRead P len (c.reader, c.pipe, replies)
    (.read result, { c with reader := reader, pipe := pipe })

/-- `NoiseStream::new` on both sides of a pipe that is empty and open. -/
def Channel.new (writerSession readerSession : NoiseSession) : Channel :=
  ⟨.new writerSession, .new readerSession, ⟨[], false⟩⟩

/-! ## An empty write -/

/-- An empty `poll_write` is taken as `Ok(0)`, and leaves the stream in
`BufferData` with nothing buffered. -/
theorem pollWrite_nil (s : NoiseStream) (pipe : Pipe) (replies : List ℕ) (hinit : s.writeState = .Init) :
    pollWrite P [] (s, pipe, replies) = (some (.ready (.ok 0)), { s with writeState := .BufferData 0 }, pipe, replies) := by
  simp [pollWrite, pollWriteOrFlush, WRITE_ROUNDS, runRounds, pollWriteOrFlushRound, hinit, writeAt,
    MAX_WRITE_BUFFER_LENGTH, decryptedLen, MAX_SIZE_NOISE_MSG, AES_GCM_TAGLEN]

/-- The sealing of no bytes: no ciphertext, and the tag. -/
theorem encryptDetached_nil (key nonce : List UInt8) :
    P.aead.encryptDetached key nonce [] [] = ([], (P.aead.encryptDetached key nonce [] []).2) := by
  have hct := P.aead.length_encryptDetached_fst key nonce [] []
  rw [List.length_nil, List.length_eq_zero_iff] at hct
  exact Prod.ext hct rfl

/-- A `poll_flush` with nothing buffered seals the empty buffer and writes the
frame of the tag alone, its length `16` first, when the socket takes the length,
the frame and the flush in one reply each. -/
theorem pollFlush_empty (s : NoiseStream) (pipe : Pipe) (hbuf : s.writeState = .BufferData 0)
    (hvalid : s.session.valid = true) (hnonce : s.session.writeNonce < U64_MAX) (hopen : pipe.closed = false) :
    let tag := (P.aead.encryptDetached s.session.writeKey (sessionNonce s.session.writeNonce) [] []).2
    pollFlush P (s, pipe, [2, 16, 1]) =
      (some (.ready (.ok ())),
        { s with session := { s.session with writeNonce := s.session.writeNonce + 1 },
                 writeBuffer := tag ++ s.writeBuffer.drop 16, writeState := .Init },
        { pipe with bytes := pipe.bytes ++ [0, 16] ++ tag }, []) := by
  intro tag
  have htag : tag.length = 16 := P.aead.length_encryptDetached_snd _ _ _ _
  have hwrite : NoiseSession.writeMessageInPlace P s.session [] =
      .ok ({ s.session with writeNonce := s.session.writeNonce + 1 }, [], tag) := by
    rw [NoiseSession.writeMessageInPlace_eq P hvalid (by simp) hnonce, encryptDetached_nil]
  clear_value tag
  simp [pollFlush, pollWriteOrFlush, WRITE_ROUNDS, runRounds, pollWriteOrFlushRound, hbuf, hwrite, writeAt,
    encryptedLen, u16ToBeBytes, pollWriteAll, socketPollWrite, hopen, socketPollFlush, htag, AES_GCM_TAGLEN]

/-- The reader of that frame decrypts it to no bytes, and its `poll_read`
returns them, as `Ok(0)`, whatever the length of its buffer. -/
theorem pollRead_tagOnly (s : NoiseStream) (pipe : Pipe) (len : ℕ) (hinit : s.readState = .Init)
    (hvalid : s.session.valid = true) (hnonce : s.session.readNonce < U64_MAX)
    (hbytes : pipe.bytes = [0, 16] ++ (P.aead.encryptDetached s.session.readKey (sessionNonce s.session.readNonce) [] []).2) :
    pollRead P len (s, pipe, [2, 16]) =
      (.ready (.ok []),
        { s with session := { s.session with readNonce := s.session.readNonce + 1 },
                 readBuffer := (P.aead.encryptDetached s.session.readKey (sessionNonce s.session.readNonce) [] []).2 ++
                   s.readBuffer.drop 16 },
        { pipe with bytes := [] }, []) := by
  have hread := NoiseSession.readMessageInPlace_encryptDetached P hvalid rfl rfl
    (show ([] : List UInt8).length ≤ MAX_SIZE_NOISE_MSG - AES_GCM_TAGLEN by simp) hnonce
  dsimp only at hread
  rw [encryptDetached_nil] at hread
  dsimp only at hread
  rw [List.nil_append] at hread
  have htag : (P.aead.encryptDetached s.session.readKey (sessionNonce s.session.readNonce) [] []).2.length = 16 :=
    P.aead.length_encryptDetached_snd _ _ _ _
  generalize (P.aead.encryptDetached s.session.readKey (sessionNonce s.session.readNonce) [] []).2 = tag at hbytes hread htag
  have hne : tag ≠ [] := List.ne_nil_of_length_pos (by omega)
  have htake : tag.take 16 = tag := List.take_of_length_le htag.le
  have hdrop : tag.drop 16 = [] := List.drop_of_length_le htag.le
  simp [pollRead, READ_ROUNDS, runRounds, pollReadRound, hinit, pollReadU16frameLen, pollReadExact, socketPollRead,
    hbytes, writeAt, fromBeBytes, hread, htag, hne, htake, hdrop]

/-- An empty `poll_write`, a `poll_flush` and a `poll_read` into a buffer of any
length, on a new channel between mirrored sessions: the write is taken as
`Ok(0)`, the flush puts the frame of the tag alone on the wire, and the reader
reads no bytes, `Ok(0)`, while the writer's socket is still open. -/
theorem emptyWrite_reads_eof {writer reader : NoiseSession} (h : NoiseSession.Mirrored writer reader)
    (hnonce : writer.writeNonce < U64_MAX) (len : ℕ) (replies : List ℕ) :
    let run := Mealy.trace (step P) (Channel.new writer reader) [.write [] replies, .flush [2, 16, 1], .read len [2, 16]]
    run.map (·.output) = [.written (some (.ready (.ok 0))), .flushed (some (.ready (.ok ()))), .read (.ready (.ok []))] ∧
      ∀ t ∈ run, t.post.pipe.closed = false := by
  intro run
  have hwrite := pollWrite_nil P (.new writer) ⟨[], false⟩ replies rfl
  have hflush := pollFlush_empty P { NoiseStream.new writer with writeState := .BufferData 0 } ⟨[], false⟩ rfl
    h.valid_writer hnonce rfl
  have hread := pollRead_tagOnly P (.new reader) ⟨[0, 16] ++
      (P.aead.encryptDetached writer.writeKey (sessionNonce writer.writeNonce) [] []).2, false⟩ len rfl
    h.valid_reader (h.nonce_eq ▸ hnonce) (by simp [NoiseStream.new, h.key_eq, h.nonce_eq])
  dsimp only [NoiseStream.new] at hwrite hflush hread
  simp only [List.cons_append, List.nil_append] at hflush hread
  simp only [run, Mealy.trace_cons, Mealy.trace_nil, Channel.new, NoiseStream.new, step, Mealy.transition, hwrite]
  simp [hflush, hread]

/-- The run above between the sessions `NoiseSession::new` makes of a pair of
keys, over `plainPrimitives`, into a buffer of one byte. -/
theorem emptyWrite_reads_eof_plain :
    let writer := NoiseSession.new [1] [2] (plainPrimitives.x25519.pub ())
    let reader := NoiseSession.new [2] [1] (plainPrimitives.x25519.pub ())
    let run := Mealy.trace (step plainPrimitives) (Channel.new writer reader) [.write [] [], .flush [2, 16, 1], .read 1 [2, 16]]
    NoiseSession.Mirrored writer reader ∧ writer.writeNonce < U64_MAX ∧
      (run.map (·.output) = [.written (some (.ready (.ok 0))), .flushed (some (.ready (.ok ()))), .read (.ready (.ok []))] ∧
        ∀ t ∈ run, t.post.pipe.closed = false) :=
  ⟨mirrored_new _ _ _ _, by decide,
    emptyWrite_reads_eof plainPrimitives (mirrored_new _ _ _ _) (by decide) 1 []⟩

end Diem.Network.Stream
