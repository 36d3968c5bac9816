import OhMyClaw.Lib.BufRead
import OhMyClaw.Lib.RustStr
import OhMyClaw.Lib.Utf8
import OhMyClaw.Proto.FrameWire

/-!
# The frame codec

Frames go over a connection as one line of JSON each.  The writer ends every line with a newline;
the reader reads up to a newline, however many reads that takes, skips what is blank, and makes a
frame of the rest.

    newline_notMem    a line has no newline before its end
    frames_returned   what is read is what was written
-/

namespace OhMyClaw.Proto

def newline : UInt8 := 10

inductive ServerError where
  | io
  | codec
deriving DecidableEq, Repr

/-! ## Writing -/

/-- The bytes `inner` has taken. -/
structure FrameWriter where
  inner : List UInt8

def FrameWriter.new : FrameWriter := { inner := [] }

def Frame.line (f : Frame) : List Char := Json.render (Frame.codec.ser f) ++ ['\n']

def FrameWriter.writeFrame (w : FrameWriter) (f : Frame) : FrameWriter where
  inner := w.inner ++ Utf8.encode f.line

/-! ## Reading -/

/-- The buffered reader.  The line buffer is cleared before each line, so it is no state. -/
abbrev FrameReader := BufRead.Reader UInt8

/-- A read line that is not blank. -/
def parseLine (text : List Char) : Except ServerError (Option Frame) :=
  match (Json.parse text).bind Frame.codec.de with
  | some f => .ok (some f)
  | none => .error .codec

namespace FrameReader

def new (reads : List (List UInt8)) : FrameReader := { buffered := [], reads }

theorem remaining_readUntil {r : FrameReader} (h : (r.readUntil newline).1 ≠ []) :
    (r.readUntil newline).2.stream.length < r.stream.length := by
  have hlen := congrArg List.length (BufRead.stream_readUntil newline r.reads r.buffered)
  change ((r.readUntil newline).1 ++ (r.readUntil newline).2.stream).length = r.stream.length at hlen
  rw [List.length_append] at hlen
  have := List.length_pos_iff.2 h
  omega

/-- The next frame, or `none` when the peer has closed. -/
def readFrame (r : FrameReader) : Except ServerError (Option Frame) × FrameReader :=
  let read := r.readUntil newline
  if _h : read.1 = [] then (.ok none, read.2)
  else
    match Utf8.fromUtf8 read.1 with
    | none => (.error .io, read.2)
    | some text =>
      if RustStr.trimEnd text = [] then readFrame read.2
      else (parseLine (RustStr.trimEnd text), read.2)
termination_by r.stream.length
decreasing_by exact remaining_readUntil _h

/-- What the next `n` calls return. -/
def results : Nat → FrameReader → List (Except ServerError (Option Frame))
  | 0, _ => []
  | n + 1, r => r.readFrame.1 :: results n r.readFrame.2

end FrameReader

/-! ## A line -/

theorem newline_notMem_render (j : Json) : newline ∉ Utf8.encode (Json.render j) := by
  intro h
  have hmem : '\n' ∈ Json.render j := Utf8.mem_of_mem_encode h (by decide)
  exact absurd (Json.render_printable hmem) (by decide)

theorem Frame.encode_line (f : Frame) :
    Utf8.encode f.line = Utf8.encode (Json.render (Frame.codec.ser f)) ++ [newline] := by
  simp only [Frame.line, Utf8.encode, List.flatMap_append]
  rfl

theorem Frame.trimEnd_line (f : Frame) : RustStr.trimEnd f.line = Json.render (Frame.codec.ser f) := by
  obtain ⟨inner, hinner⟩ := Json.render_obj (Frame.members.write f)
  have hrender : Json.render (Frame.codec.ser f) = ('{' :: inner) ++ ['}'] := hinner
  rw [Frame.line, RustStr.trimEnd, List.rdropWhile_concat_pos _ _ _ (by decide), hrender,
    List.rdropWhile_concat_neg _ _ _ (by decide)]

theorem parseLine_render (f : Frame) : parseLine (Json.render (Frame.codec.ser f)) = .ok (some f) := by
  rw [parseLine, Json.parse_render, Option.bind_some, Frame.codec.de_ser]

theorem Frame.render_ne_nil (f : Frame) : Json.render (Frame.codec.ser f) ≠ [] := by
  obtain ⟨inner, hinner⟩ := Json.render_obj (Frame.members.write f)
  have hrender : Json.render (Frame.codec.ser f) = '{' :: (inner ++ ['}']) := hinner
  rw [hrender]
  exact List.cons_ne_nil _ _

theorem Frame.line_injective {f g : Frame} (h : Utf8.encode f.line = Utf8.encode g.line) : f = g := by
  have hline : f.line = g.line := by
    rw [← Option.some_inj, ← Utf8.fromUtf8_encode, h, Utf8.fromUtf8_encode]
  have hrender := congrArg RustStr.trimEnd hline
  rw [Frame.trimEnd_line, Frame.trimEnd_line] at hrender
  have hread := parseLine_render f
  rw [hrender, parseLine_render g] at hread
  exact (Option.some.inj (Except.ok.inj hread)).symm

/-! ## A connection -/

/-- One frame at the head of the stream is read, and only its line is consumed. -/
theorem readFrame_line {r : FrameReader} (hreads : [] ∉ r.reads) {f : Frame} {rest : List UInt8}
    (h : r.stream = Utf8.encode f.line ++ rest) :
    ∃ r', r.readFrame = (.ok (some f), r') ∧ r'.stream = rest ∧ [] ∉ r'.reads := by
  rw [Frame.encode_line, List.append_assoc] at h
  obtain ⟨r', hr, hstream, hfull⟩ := BufRead.readUntil_found hreads (newline_notMem_render _) h
  refine ⟨r', ?_, hstream, hfull⟩
  have hread : r.readUntil newline = (Utf8.encode f.line, r') := by rw [Frame.encode_line]; exact hr
  have hne : Utf8.encode f.line ≠ [] := by simp [Frame.encode_line]
  unfold FrameReader.readFrame
  simp only [hread, hne, dite_false, Utf8.fromUtf8_encode, Frame.trimEnd_line, Frame.render_ne_nil, if_false,
    parseLine_render]

theorem readFrame_end {r : FrameReader} (hreads : [] ∉ r.reads) (h : r.stream = []) :
    r.readFrame = (.ok none, r) := by
  have hread : r.readUntil newline = ([], r) := BufRead.readUntil_end h hreads
  unfold FrameReader.readFrame
  simp only [hread, dite_true]

theorem results_end {r : FrameReader} (hreads : [] ∉ r.reads) (h : r.stream = []) (n : Nat) :
    r.results n = List.replicate n (.ok none) := by
  induction n with
  | zero => rfl
  | succ n ih => rw [FrameReader.results, readFrame_end hreads h, ih, List.replicate_succ]

theorem results_lines {fs : List Frame} {r : FrameReader} (hreads : [] ∉ r.reads)
    (h : r.stream = fs.flatMap fun f => Utf8.encode f.line) (n : Nat) :
    r.results (fs.length + n) = (fs.map fun f => .ok (some f)) ++ List.replicate n (.ok none) := by
  induction fs generalizing r with
  | nil => simpa using results_end hreads h n
  | cons f fs ih =>
    obtain ⟨r', hread, hstream, hfull⟩ := readFrame_line hreads (by rw [h, List.flatMap_cons])
    rw [List.length_cons, Nat.add_right_comm, FrameReader.results, hread, ih hfull hstream]
    rfl

theorem inner_writeFrames (fs : List Frame) (w : FrameWriter) :
    (fs.foldl FrameWriter.writeFrame w).inner = w.inner ++ fs.flatMap fun f => Utf8.encode f.line := by
  induction fs generalizing w with
  | nil => simp
  | cons f fs ih =>
    rw [List.foldl_cons, ih, List.flatMap_cons, ← List.append_assoc]
    rfl

/-- Frames that were written are read as they were, in their order, whatever reads the bytes come in;
then the peer has closed.  No two frames have the same line, and no line has a newline before its
end. -/
theorem frames_returned (fs : List Frame) {reads : List (List UInt8)} (hreads : [] ∉ reads)
    (h : reads.flatten = (fs.foldl FrameWriter.writeFrame FrameWriter.new).inner) :
    (∀ n, (FrameReader.new reads).results (fs.length + n) =
      (fs.map fun f => .ok (some f)) ++ List.replicate n (.ok none)) ∧
    (∀ f g : Frame, Utf8.encode f.line = Utf8.encode g.line → f = g) ∧
    ∀ f : Frame, ∃ json, Utf8.encode f.line = json ++ [newline] ∧ newline ∉ json := by
  have hstream : (FrameReader.new reads).stream = fs.flatMap fun f => Utf8.encode f.line := by
    rw [inner_writeFrames] at h
    exact h
  refine ⟨fun n => results_lines hreads hstream n, fun f g => Frame.line_injective, fun f => ?_⟩
  exact ⟨_, f.encode_line, newline_notMem_render _⟩

/-- A text of two lines, a request without parameters and an answer with a list, byte by byte. -/
theorem frames_returned_bytes :
    let fs : List Frame :=
      [.event (.assistant "main" "r1" "eins\nzwei\u0007 ü"),
        .req { id := "7", method := .tasksList, idempotencyKey := none },
        .res { id := "7", result := .ok (.tasks [⟨"t1", "exec", .running, some "0 %"⟩]) }]
    let bytes := (fs.foldl FrameWriter.writeFrame FrameWriter.new).inner
    (FrameReader.new (bytes.map ([·]))).results 4 =
      (fs.map fun f => .ok (some f)) ++ [.ok none] := by
  intro fs bytes
  have hreads : [] ∉ bytes.map ([·]) := by simp
  have hflatten : (bytes.map ([·])).flatten = bytes := by rw [← List.flatMap_def, List.flatMap_singleton']
  exact (frames_returned fs hreads hflatten).1 1

end OhMyClaw.Proto
