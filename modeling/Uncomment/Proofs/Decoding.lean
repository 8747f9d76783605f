import Mathlib.Order.Bounds.Defs
import Uncomment.Proofs.CharacterBytes
import Uncomment.Stripping.Basic

/-! # Bytes that encode a text

A reader of bytes answers the text that they encode, if there is one. Otherwise it is stuck behind
the longest part at their front that encodes a text, and it tells whether more bytes could help. -/

namespace Uncomment

namespace Text

/-! ## What a reader answers -/

/-- No character is encoded at the front of these bytes, and there are some. -/
private structure Stuck (left : Bytes) : Prop where
  nonempty : left ≠ []
  blocked : ∀ character, ¬String.utf8EncodeChar character <+: left

/-- What a reader answers to bytes at `start`: the text that they encode, or an error behind a text
where it is stuck. The bytes from there may still begin a character. -/
private inductive Reads (start : Nat) : Bytes → Except Utf8Error Text → Prop
  | text (text : Text) : Reads start text.encode (.ok text)
  | refused (text : Text) {left : Bytes} {error : Utf8Error} (stuck : Stuck left)
      (place : error.validUpTo = start + text.encode.length)
      (incomplete : (∃ index, error = .incomplete index) ↔ Begins left) :
      Reads start (text.encode ++ left) (.error error)

private theorem Reads.cons {start : Nat} {character : Char} {part bytes : Bytes}
    {answer : Except Utf8Error Text} (encodes : String.utf8EncodeChar character = part)
    (reads : Reads (start + part.length) bytes answer) :
    Reads start (part ++ bytes) (answer.map (character :: ·)) := by
  subst part
  cases reads with
  | text text => exact .text (character :: text)
  | @refused text left error stuck place incomplete =>
      rw [← List.append_assoc, ← encode_cons]
      refine .refused (character :: text) stuck ?_ incomplete
      rw [place, encode_cons, List.length_append, Nat.add_assoc]

private inductive Stands (start : Nat) : Option Begun → Bytes → Prop
  | between : Stands start none []
  | inside {begun : Begun} {front : Bytes} (place : begun.start = start)
      (tracks : begun.Tracks front) : Stands start (some begun) front

private theorem Begun.Tracks.stuck {begun : Begun} {front rest : Bytes}
    (tracks : begun.Tracks front)
    (refused : ∀ byte later, rest = byte :: later → ¬(begun.low ≤ byte ∧ byte ≤ begun.high)) :
    Stuck (front ++ rest) where
  nonempty := List.append_ne_nil_of_left_ne_nil tracks.nonempty _
  blocked := by
    rintro character ⟨after, bytes⟩
    rcases List.append_eq_append_iff.mp bytes with ⟨more, bytes, -⟩ | ⟨more, bytes, others⟩
    · -- the character that begins with `front` would begin with the whole of another one
      rcases tracks.begins with ⟨other, further, begins⟩
      rw [bytes, List.append_assoc, ← List.append_nil (String.utf8EncodeChar other)] at begins
      rw [utf8EncodeChar_append_inj begins, List.append_cancel_left_eq, eq_comm,
        List.append_eq_nil_iff] at begins
      have whole : String.utf8EncodeChar character = front ++ [] := by
        rw [bytes, begins.1, List.append_nil, List.append_nil]
      rcases tracks.exists_of_encode whole with ⟨byte, later, none, -⟩
      cases none
    · rcases tracks.exists_of_encode bytes with ⟨byte, later, rfl, within⟩
      exact refused byte _ others within

private theorem Begun.Tracks.not_begins {begun : Begun} {front : Bytes} {byte : UInt8}
    (tracks : begun.Tracks front) (outside : ¬(begun.low ≤ byte ∧ byte ≤ begun.high))
    (rest : Bytes) : ¬Begins (front ++ byte :: rest) := by
  rintro ⟨character, more, bytes⟩
  rw [List.append_assoc] at bytes
  rcases tracks.exists_of_encode bytes with ⟨other, later, same, within⟩
  rw [List.cons_append, List.cons.injEq] at same
  exact outside (same.1 ▸ within)

private theorem stuck_of_begin?_eq_none {start : Nat} {lead : UInt8} (notLow : ¬lead < 0x80)
    (refused : begin? start lead = none) (rest : Bytes) : Stuck (lead :: rest) where
  nonempty := List.cons_ne_nil _ _
  blocked := by
    rintro character ⟨after, bytes⟩
    rcases equal : String.utf8EncodeChar character with _ | ⟨first, more⟩
    · exact String.utf8EncodeChar_ne_nil equal
    · rw [equal, List.cons_append, List.cons.injEq] at bytes
      exact ne_of_begin?_eq_none notLow refused character more (bytes.1 ▸ equal)

private theorem reads_decodeFrom {start index : Nat} {state : Option Begun} {front bytes : Bytes}
    (stands : Stands start state front) (place : index = start + front.length) :
    Reads start (front ++ bytes) (decodeFrom index state bytes) := by
  -- The bytes of a begun character move to `front`, and from there into the text all at once.
  induction bytes generalizing start index state front with
  | nil =>
      rcases stands with _ | ⟨rfl, tracks⟩
      · exact .text []
      · rw [decodeFrom]
        have begins : Begins (front ++ []) := (List.append_nil front).symm ▸ tracks.begins
        exact .refused [] (tracks.stuck nofun) rfl ⟨fun _ => begins, fun _ => ⟨_, rfl⟩⟩
  | cons byte rest induction =>
      cases stands with
      | between =>
          rw [List.length_nil, Nat.add_zero] at place
          subst index
          rw [decodeFrom]
          by_cases low : byte < 0x80
          · have reads : Reads (start + [byte].length) rest (decodeFrom (start + 1) none rest) :=
              induction .between rfl
            have further := reads.cons (utf8EncodeChar_ofNat low)
            rw [if_pos low]
            exact further
          · rw [if_neg low]
            cases begins : begin? start byte with
            | some begun =>
                exact induction (.inside (leads_of_begin? begins).1 (Begun.tracks_lead begins)) rfl
            | none =>
                refine .refused [] (stuck_of_begin?_eq_none low begins rest) rfl ⟨nofun, ?_⟩
                rintro ⟨character, more, bytes⟩
                exact absurd bytes (ne_of_begin?_eq_none low begins character _)
      | @inside begun front starts tracks =>
          subst starts
          rw [decodeFrom]
          by_cases within : begun.low ≤ byte ∧ byte ≤ begun.high
          · rw [if_pos within, ← List.singleton_append, ← List.append_assoc]
            by_cases last : begun.missing ≤ 1
            · have encodes := tracks.encode_of_last within last
              rw [if_pos last]
              refine (induction .between ?_).cons encodes
              rw [place, List.length_append, Nat.add_assoc]
              rfl
            · rw [if_neg last]
              refine induction (.inside rfl (tracks.advance within last)) ?_
              rw [place, List.length_append, Nat.add_assoc]
              rfl
          · have stuck : Stuck (front ++ byte :: rest) := tracks.stuck (by
              rintro other later same
              cases same
              exact within)
            have noMore := tracks.not_begins within rest
            rw [if_neg within]
            exact .refused [] stuck rfl ⟨nofun, fun begins => absurd begins noMore⟩

/-! ## What the answer says -/

theorem encode_eq_nil_iff (text : Text) : text.encode = [] ↔ text = [] := by
  cases text with
  | nil => simp [encode]
  | cons character rest => simp [encode_cons, String.utf8EncodeChar_ne_nil]

/-- Of two texts whose encodings begin the same bytes, the longer one begins with the other. -/
theorem exists_append_of_encode {text other : Text} {left right : Bytes}
    (same : text.encode ++ left = other.encode ++ right)
    (shorter : text.encode.length ≤ other.encode.length) :
    ∃ more : Text, other = text ++ more ∧ left = more.encode ++ right := by
  induction text generalizing other with
  | nil => exact ⟨other, rfl, same⟩
  | cons character text induction =>
      cases other with
      | nil =>
          have none := List.length_eq_zero_iff.mp (Nat.le_zero.mp shorter)
          cases (encode_eq_nil_iff _).mp none
      | cons next other =>
          rw [encode_cons, encode_cons, List.append_assoc, List.append_assoc] at same
          obtain rfl := utf8EncodeChar_append_inj same
          rw [List.append_cancel_left_eq] at same
          rw [encode_cons, encode_cons, List.length_append, List.length_append,
            Nat.add_le_add_iff_left] at shorter
          rcases induction same shorter with ⟨more, rfl, further⟩
          exact ⟨more, rfl, further⟩

theorem exists_append_of_encode_eq {text other : Text} {left : Bytes}
    (bytes : other.encode = text.encode ++ left) :
    ∃ more : Text, other = text ++ more ∧ left = more.encode := by
  have same : text.encode ++ left = other.encode ++ [] := by rw [bytes, List.append_nil]
  have shorter : text.encode.length ≤ other.encode.length := by simp [bytes]
  rcases exists_append_of_encode same shorter with ⟨more, split, rest⟩
  exact ⟨more, split, by rw [rest, List.append_nil]⟩

theorem encode_injective : Function.Injective encode := by
  intro text other same
  have bytes : other.encode = text.encode ++ [] := by rw [same, List.append_nil]
  rcases exists_append_of_encode_eq bytes with ⟨more, rfl, none⟩
  rw [(encode_eq_nil_iff more).mp none.symm, List.append_nil]

private theorem Stuck.eq_nil {left right : Bytes} {more : Text} (stuck : Stuck left)
    (bytes : left = more.encode ++ right) : more = [] := by
  rcases more with _ | ⟨character, more⟩
  · rfl
  · rw [encode_cons, List.append_assoc] at bytes
    exact absurd ⟨_, bytes.symm⟩ (stuck.blocked character)

end Text

def Bytes.IsText (bytes : Bytes) : Prop :=
  ∃ text : Text, text.encode = bytes

def Bytes.textLengths (bytes : Bytes) : Set Nat :=
  {length | ∃ text : Text, text.encode <+: bytes ∧ text.encode.length = length}

namespace Text

section Stuck

variable {valid : Text} {left : Bytes} (stuck : Stuck left)

include stuck

private theorem Stuck.not_isText : ¬Bytes.IsText (valid.encode ++ left) := by
  rintro ⟨text, bytes⟩
  rcases exists_append_of_encode_eq bytes with ⟨more, -, rest⟩
  have none : more = [] := stuck.eq_nil (rest.trans (List.append_nil _).symm)
  apply stuck.nonempty
  rw [rest, none]
  rfl

private theorem Stuck.isGreatest :
    IsGreatest (Bytes.textLengths (valid.encode ++ left)) valid.encode.length := by
  refine ⟨⟨valid, List.prefix_append _ _, rfl⟩, ?_⟩
  rintro length ⟨text, ⟨rest, bytes⟩, rfl⟩
  rcases Nat.le_total text.encode.length valid.encode.length with shorter | longer
  · exact shorter
  · rcases exists_append_of_encode bytes.symm longer with ⟨more, rfl, others⟩
    have whole : valid ++ more = valid := by rw [stuck.eq_nil others, List.append_nil]
    exact Nat.le_of_eq (congrArg (fun text => (encode text).length) whole)

private theorem Stuck.begins_iff :
    Begins left ↔ ∃ more, Bytes.IsText (valid.encode ++ left ++ more) := by
  constructor
  · rintro ⟨character, more, bytes⟩
    refine ⟨more, valid ++ [character], ?_⟩
    rw [encode_append, List.append_assoc, ← bytes, encode_cons]
    exact congrArg _ (List.append_nil _)
  · rintro ⟨more, text, bytes⟩
    rw [List.append_assoc] at bytes
    rcases exists_append_of_encode_eq bytes with ⟨rest, -, others⟩
    cases rest with
    | nil => exact absurd (List.append_eq_nil_iff.mp others).1 stuck.nonempty
    | cons character rest =>
        rw [encode_cons] at others
        rcases List.append_eq_append_iff.mp others with
          ⟨further, encodes, -⟩ | ⟨further, rfl, -⟩
        · exact ⟨character, further, encodes⟩
        · exact absurd ⟨_, rfl⟩ (stuck.blocked character)

end Stuck

theorem decode_eq_ok_iff (bytes : Bytes) (text : Text) :
    decode bytes = .ok text ↔ text.encode = bytes := by
  have reads : Reads 0 bytes (decode bytes) := reads_decodeFrom .between rfl
  generalize decode bytes = answer at reads
  cases reads with
  | text other => rw [Except.ok.injEq, encode_injective.eq_iff, eq_comm]
  | refused valid stuck =>
      exact ⟨nofun, fun encodes => absurd ⟨text, encodes⟩ stuck.not_isText⟩

theorem decode_eq_error {bytes : Bytes} {error : Utf8Error}
    (refused : decode bytes = .error error) :
    ¬bytes.IsText ∧ IsGreatest bytes.textLengths error.validUpTo ∧
      ((∃ index, error = .incomplete index) ↔ ∃ more, Bytes.IsText (bytes ++ more)) := by
  have reads : Reads 0 bytes (decode bytes) := reads_decodeFrom .between rfl
  rw [refused] at reads
  cases reads with
  | refused valid stuck place incomplete =>
      rw [place, Nat.zero_add]
      exact ⟨stuck.not_isText, stuck.isGreatest, incomplete.trans stuck.begins_iff⟩

end Text

/-! ## Stripping bytes -/

namespace StripFailure

theorem message_incomplete (index : Nat) :
    (notText (.incomplete index)).message =
      "input is not text: incomplete utf-8 byte sequence from index " ++ toString index := by
  have message : (notText (.incomplete index)).message =
      "input is not text: " ++
        ("incomplete utf-8 byte sequence from index " ++ toString index) := rfl
  rw [message, ← String.append_assoc]
  rfl

theorem message_invalid (length index : Nat) :
    (notText (.invalid length index)).message =
      "input is not text: invalid utf-8 sequence of " ++ toString length ++
        " bytes from index " ++ toString index := by
  have message : (notText (.invalid length index)).message =
      "input is not text: " ++ ("invalid utf-8 sequence of " ++ toString length ++
        " bytes from index " ++ toString index) := rfl
  rw [message, ← String.append_assoc, ← String.append_assoc, ← String.append_assoc]
  rfl

private theorem message_incomplete_ne (index length place : Nat) :
    (notText (.incomplete index)).message ≠ (notText (.invalid length place)).message := by
  intro same
  have letter := congrArg (fun text => text.toList[21]?) same
  simp [message_incomplete, message_invalid] at letter

variable (cause : Utf8Error)

theorem message_eq_incomplete_iff :
    (notText cause).message =
        "input is not text: incomplete utf-8 byte sequence from index " ++
          toString cause.validUpTo ↔
      ∃ index, cause = .incomplete index := by
  cases cause with
  | incomplete index => exact ⟨fun _ => ⟨index, rfl⟩, fun _ => message_incomplete index⟩
  | invalid length place =>
      rw [← message_incomplete]
      exact ⟨fun same => absurd same.symm (message_incomplete_ne _ _ _), nofun⟩

theorem message_eq_invalid_iff :
    (∃ length : Nat, (notText cause).message =
        "input is not text: invalid utf-8 sequence of " ++ toString length ++
          " bytes from index " ++ toString cause.validUpTo) ↔
      ¬∃ index, cause = .incomplete index := by
  simp only [← message_invalid]
  cases cause with
  | incomplete index =>
      refine ⟨?_, fun other => absurd ⟨index, rfl⟩ other⟩
      rintro ⟨length, same⟩
      exact absurd same (message_incomplete_ne _ _ _)
  | invalid length place => exact ⟨fun _ => nofun, fun _ => ⟨length, rfl⟩⟩

end StripFailure

theorem stripBytes_encode (parse : Parser) (text : Text) (options : StripOptions) :
    stripBytes parse text.encode options = strip parse text options := by
  rw [stripBytes, (Text.decode_eq_ok_iff _ text).mpr rfl]

private theorem strip_ne_notText (parse : Parser) (source : Text) (options : StripOptions)
    (cause : Utf8Error) : strip parse source options ≠ .error (.notText cause) := by
  unfold strip
  split <;> nofun

theorem stripBytes_eq_notText_iff (parse : Parser) (bytes : Bytes) (options : StripOptions)
    (cause : Utf8Error) :
    stripBytes parse bytes options = .error (.notText cause) ↔
      Text.decode bytes = .error cause := by
  unfold stripBytes
  cases Text.decode bytes with
  | ok source =>
      exact ⟨fun fails => absurd fails (strip_ne_notText parse source options cause), nofun⟩
  | error other => rw [Except.error.injEq, Except.error.injEq, StripFailure.notText.injEq]

/-- Bytes that encode a text are stripped as that text, and all others are refused. The message of a
refusal tells where the longest text at the front of the bytes ends, and it calls the bytes
incomplete if and only if more bytes behind them would make them a text. -/
theorem stripBytes_by_encoding (parse : Parser) (bytes : Bytes) (options : StripOptions) :
    (∀ text : Text, text.encode = bytes →
      stripBytes parse bytes options = strip parse text options) ∧
    ((∃ cause, stripBytes parse bytes options = .error (.notText cause)) ↔ ¬bytes.IsText) ∧
    ∀ cause, stripBytes parse bytes options = .error (.notText cause) →
      ∃ index : Nat, IsGreatest bytes.textLengths index ∧
        ((StripFailure.notText cause).message =
            "input is not text: incomplete utf-8 byte sequence from index " ++ toString index ↔
          ∃ more, Bytes.IsText (bytes ++ more)) ∧
        ((∃ length : Nat, (StripFailure.notText cause).message =
            "input is not text: invalid utf-8 sequence of " ++ toString length ++
              " bytes from index " ++ toString index) ↔
          ¬∃ more, Bytes.IsText (bytes ++ more)) := by
  refine ⟨?_, ?_, ?_⟩
  · rintro text rfl
    exact stripBytes_encode parse text options
  · simp only [stripBytes_eq_notText_iff]
    constructor
    · rintro ⟨cause, refused⟩
      exact (Text.decode_eq_error refused).1
    · intro notText
      rcases answer : Text.decode bytes with cause | text
      · exact ⟨cause, rfl⟩
      · exact absurd ⟨text, (Text.decode_eq_ok_iff bytes text).mp answer⟩ notText
  · intro cause refused
    rw [stripBytes_eq_notText_iff] at refused
    rcases Text.decode_eq_error refused with ⟨-, greatest, incomplete⟩
    rw [← incomplete]
    exact ⟨cause.validUpTo, greatest, StripFailure.message_eq_incomplete_iff cause,
      StripFailure.message_eq_invalid_iff cause⟩

def surrogateBytes : Bytes := [0x61, 0xED, 0xA0, 0x80]

theorem stripBytes_by_encoding_surrogateBytes :
    stripBytes (fun _ _ => none) (Text.encode ['a']) {} = strip (fun _ _ => none) ['a'] {} ∧
    stripBytes (fun _ _ => none) surrogateBytes {} = .error (.notText (.invalid 1 1)) ∧
    (∃ index, IsGreatest surrogateBytes.textLengths index) ∧
    ¬∃ more, Bytes.IsText (surrogateBytes ++ more) := by
  have refused : stripBytes (fun _ _ => none) surrogateBytes {} =
      .error (.notText (.invalid 1 1)) := rfl
  rcases stripBytes_by_encoding (fun _ _ => none) surrogateBytes {} with ⟨-, -, refusal⟩
  rcases refusal _ refused with ⟨index, greatest, incomplete, -⟩
  refine ⟨(stripBytes_by_encoding _ _ _).1 ['a'] rfl, refused, ⟨index, greatest⟩, ?_⟩
  intro completable
  have message := incomplete.mpr completable
  rw [← StripFailure.message_incomplete] at message
  exact StripFailure.message_incomplete_ne index 1 1 message.symm

end Uncomment
