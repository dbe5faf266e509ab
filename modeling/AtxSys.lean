import AtxSys.Lib.CText
import AtxSys.Lib.FlatForest
import AtxSys.Lib.JsonSyntax
import AtxSys.Lib.Slices
import AtxSys.Lib.Trace
import AtxSys.Run
import AtxSys.Jsmn
import AtxSys.Json
import AtxSys.Http
import AtxSys.Env
import AtxSys.Updater
import AtxSys.Upload
import AtxSys.NetworkManagement
import AtxSys.NetworkRoute
import AtxSys.UserConfig
import AtxSys.Proof.Tokenizer
import AtxSys.Proof.TreeTokens
import AtxSys.Proof.Continuation
import AtxSys.Proof.Walk
import AtxSys.Proof.Document
import AtxSys.Proof.Upload
import AtxSys.Proof.Env
import AtxSys.Proof.NetworkConfig
import AtxSys.Proof.RoundTrip
import AtxSys.Proof.AnyStack
import AtxSys.Proof.Interfaces
import AtxSys.Proof.NetworkRoute
import AtxSys.Proof.UserConfig
import AtxSys.Lib.Handles
import AtxSys.Proof.Sessions
import AtxSys.Proof.Uboot
import AtxSys.Proof.UploadEnd
import AtxSys.Lib.Changes
import AtxSys.Progress
import AtxSys.Proof.Progress
import AtxSys.Proof.Cut
import AtxSys.Proof.Query
import AtxSys.EnvRoute
import AtxSys.Proof.EnvRoute
import AtxSys.Proof.EnvBuffer
import AtxSys.Routes
import AtxSys.Proof.Routes
import AtxSys.Proof.Aborts
import AtxSys.Lib.JsonDecode
import AtxSys.Lib.JsonPaste
import AtxSys.Proof.EnvDump
import AtxSys.Proof.Replies
import AtxSys.EnvEmu
import AtxSys.Proof.EnvEmu
import AtxSys.Proof.Resolve
import AtxSys.Proof.TwoReaders
import AtxSys.Lib.Printf
import AtxSys.Broadcast
import AtxSys.Proof.Broadcast
import AtxSys.Lib.Strtoull
import AtxSys.Numbers
import AtxSys.Proof.Numbers
import AtxSys.Khash
import AtxSys.Lib.Bits
import AtxSys.Lib.OpenAddressing
import AtxSys.Containers
import AtxSys.Lib.Dictionary
import AtxSys.Proof.Containers
import AtxSys.Proof.RouteMap
import AtxSys.JsmnCalls
import AtxSys.Proof.JsmnCalls
import AtxSys.HttpPoll
import AtxSys.Proof.HttpPoll
import AtxSys.System
import AtxSys.Proof.System
import AtxSys.Lib.JsonPath
import AtxSys.Proof.JsonWalk
import AtxSys.UpdaterEmu
import AtxSys.Proof.UpdaterEmu
import AtxSys.Proof.ProgressIpc
import AtxSys.Lib.JsonOutline
import AtxSys.Proof.Outline
import AtxSys.Lib.Getopt
import AtxSys.Startup
import AtxSys.Proof.Startup
import AtxSys.Lib.HttpReader
import AtxSys.Proof.Wire
