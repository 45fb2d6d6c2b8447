/-
# The messages of mircd

The numeric replies of `enums.hpp`, the type `CMD_MSG` and its rendering by `sendcmds`, from
`Homework/1/mircd`.

* `RPL`, `ERR` : the reply and error codes;
* `CmdMsg` : a command or a numeric with its parameters;
* `CmdMsg.render`, `sendcmdsStr` : the lines `sendcmds` sends.
-/
import IntroNP.Bytes

namespace Mircd

/-! ## Codes -/

/-- `RPL`. -/
inductive RPL where
  | WELCOME | LUSERCLIENT | LISTSTART | LIST | LISTEND | NOTOPIC | TOPIC | NAMREPLY | ENDOFNAMES
  | MOTD | MOTDSTART | ENDOFMOTD | USERSSTART | USERS | ENDOFUSERS
  deriving DecidableEq

/-- The values of `RPL`. -/
def RPL.code : RPL → ℕ
  | WELCOME => 1
  | LUSERCLIENT => 251
  | LISTSTART => 321
  | LIST => 322
  | LISTEND => 323
  | NOTOPIC => 331
  | TOPIC => 332
  | NAMREPLY => 353
  | ENDOFNAMES => 366
  | MOTD => 372
  | MOTDSTART => 375
  | ENDOFMOTD => 376
  | USERSSTART => 392
  | USERS => 393
  | ENDOFUSERS => 394

/-- `ERR`. -/
inductive ERR where
  | NOSUCHNICK | NOSUCHCHANNEL | NOORIGIN | NORECIPIENT | NOTEXTTOSEND | UNKNOWNCOMMAND
  | NONICKNAMEGIVEN | ERRONEUSNICKNAME | NICKCOLLISION | NOTONCHANNEL | NOTREGISTERED
  | NEEDMOREPARAMS | ALREADYREGISTRED
  deriving DecidableEq

/-- The values of `ERR`. -/
def ERR.code : ERR → ℕ
  | NOSUCHNICK => 401
  | NOSUCHCHANNEL => 403
  | NOORIGIN => 409
  | NORECIPIENT => 411
  | NOTEXTTOSEND => 412
  | UNKNOWNCOMMAND => 421
  | NONICKNAMEGIVEN => 431
  | ERRONEUSNICKNAME => 432
  | NICKCOLLISION => 436
  | NOTONCHANNEL => 442
  | NOTREGISTERED => 451
  | NEEDMOREPARAMS => 461
  | ALREADYREGISTRED => 462

/-! ## Messages -/

/-- `CMD`, the variant of a command word and a number. -/
inductive Cmd where
  | text (word : Bytes)
  | num (code : ℕ)
  deriving DecidableEq

/-- `CMD_MSG`. -/
structure CmdMsg where
  /-- The command or the number. -/
  cmd : Cmd
  /-- The parameters. -/
  argv : List Bytes
  deriving DecidableEq

/-- A message with a command word. -/
def CmdMsg.ofText (word : String) (argv : List Bytes) : CmdMsg := ⟨.text (ascii word), argv⟩

/-- A numeric reply. -/
def CmdMsg.ofRPL (r : RPL) (argv : List Bytes) : CmdMsg := ⟨.num r.code, argv⟩

/-- An error reply. -/
def CmdMsg.ofERR (e : ERR) (argv : List Bytes) : CmdMsg := ⟨.num e.code, argv⟩

/-- The conversion `%03d`. -/
def dec03 (n : ℕ) : Bytes := List.replicate (3 - (dec n).length) (ch '0') ++ dec n

/-- The parameters of a line: a blank before each, a colon before the last. -/
def renderArgv : List Bytes → Bytes
  | [] => []
  | [a] => ascii " :" ++ a
  | a :: b :: argv => ascii " " ++ a ++ renderArgv (b :: argv)

/-- The line `sendcmds` makes of a message: a command is preceded by the nickname, a number is
followed by it, if it is not empty. -/
def CmdMsg.render (nick : Bytes) (m : CmdMsg) : Bytes :=
  let head := match m.cmd with
    | .text word => ascii ":" ++ nick ++ ascii " " ++ word
    | .num code => dec03 code ++ if nick.isEmpty then [] else ascii " " ++ nick
  head ++ renderArgv m.argv ++ ascii "\n"

/-- The buffer `sendcmds` sends. -/
def sendcmdsStr (cmds : List CmdMsg) (nick : Bytes) : Bytes :=
  (cmds.map (CmdMsg.render nick)).flatten

/-- `WELCOME_CMDS`. -/
def welcomeCmds : List CmdMsg := [
  .ofRPL .WELCOME [ascii "Welcome to the minimized IRC daemon!"],
  .ofRPL .LUSERCLIENT [ascii "There are ? users and ? invisible on ? servers"],
  .ofRPL .MOTDSTART [ascii "-  Hello, World!                       "],
  .ofRPL .MOTDSTART [ascii "-               @                    _ "],
  .ofRPL .MOTDSTART [ascii "-   ____  ___   _   _ _   ____.     | |"],
  .ofRPL .MOTDSTART [ascii "-  /  _ `'_  \\ | | | '_/ /  __|  ___| |"],
  .ofRPL .MOTDSTART [ascii "-  | | | | | | | | | |   | |    /  _  |"],
  .ofRPL .MOTDSTART [ascii "-  | | | | | | | | | |   | |__  | |_| |"],
  .ofRPL .MOTDSTART [ascii "-  |_| |_| |_| |_| |_|   \\____| \\___,_|"],
  .ofRPL .MOTDSTART [ascii "-  minimized internet relay chat daemon"],
  .ofRPL .MOTDSTART [ascii "-                                      "],
  .ofRPL .ENDOFMOTD [ascii "End of message of the day"]]

/-- A line of the general form: the text of a message delivered in a channel. -/
example : (CmdMsg.ofText "PRIVMSG" [ascii "#c", ascii "hi"]).render (ascii "bob")
    = ascii ":bob PRIVMSG #c :hi\n" := by decide

end Mircd
