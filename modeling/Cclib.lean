import Cclib.Lib.Loop
import Cclib.Lib.Compare
import Cclib.Lib.ContextFree
import Cclib.Lib.Lr
import Cclib.Cclvar.Value
import Cclib.Cclvar.Order
import Cclib.Ccljson.Tables
import Cclib.Ccljson.Lalr
import Cclib.Ccljson.Grammar
import Cclib.Ccljson.Automaton
import Cclib.Ccljson.Recognise
import Cclib.Ccljson.Language
import Cclib.Cclvar.Dict
import Cclib.Ccljson.Lexer
import Cclib.Ccljson.Actions
import Cclib.Ccljson.Stacks
import Cclib.Ccljson.Text
import Cclib.Ccljson.Parser
import Cclib.Ccljson.Create
import Cclib.Ccljson.Nice
import Cclib.Ccljson.Layout
import Cclib.Ccljson.Print
import Cclib.Ccljson.Rewrite
import Cclib.Ccljson.RoundTrip
import Cclib.Ccljson.Rfc
import Cclib.Ccljson.Lexemes
import Cclib.Ccljson.Pieces
import Cclib.Ccljson.Whole
import Cclib.Ccljson.Numbers
import Cclib.Ccljson.Unicode
import Cclib.Ccljson.Respaced
import Cclib.Ccljson.Lockstep
import Cclib.Ccljson.Valid
import Cclib.Lib.RefCount
import Cclib.Cclvar.Handles
import Cclib.Cclvar.Heap
import Cclib.Cclvar.Store
import Cclib.Cclvar.Ordered
import Cclib.Lib.Acyclic
import Cclib.Cclvar.Acyclic
import Cclib.Cclvar.Copy
import Cclib.Lib.Utf8
import Cclib.Cclxml.Node
import Cclib.Cclxml.Events
import Cclib.Cclxml.Cuttings
import Cclib.Cclxml.Grammar
import Cclib.Cclxml.Structure
import Cclib.Cclxml.RoundTrip
import Cclib.Lib.Ownership
import Cclib.Lib.Runs
import Cclib.Cclwebs.Protocol
import Cclib.Cclwebs.Lifetimes
import Cclib.Cclsys.System
import Cclib.Cclsys.Lineage
import Cclib.Cclsys.Account
import Cclib.Cclsys.Children
import Cclib.Cclsys.Owners
import Cclib.Cclvarval.Validator
import Cclib.Cclvarval.Tasks
import Cclib.Cclvarval.Report
import Cclib.Cclvarval.ReadOnly
import Cclib.Lib.SearchTree
import Cclib.Cclvarval.Entries
import Cclib.Cclvarval.Satisfies
import Cclib.Cclvarval.Reaches
import Cclib.Cclvarval.Path
import Cclib.Cclvarval.Memory
import Cclib.Cclvarval.Terminates
import Cclib.Lib.Cuts
import Cclib.Cclstr.Split
import Cclib.Cclstr.Regex
import Cclib.Lib.Base64
import Cclib.Cclcrypto.Base64
import Cclib.Cclvarval.WholeText
import Cclib.Ccljson.Interning
import Cclib.Ccljson.Decoder
import Cclib.Ccljson.Beginnings
import Cclib.Ccljson.Aborts
import Cclib.Ccljson.Endless
import Cclib.Cclcrypto.Passwd
import Cclib.Cclsys.Stream
import Cclib.Cclsys.Fd
import Cclib.Lib.KeyedSet
import Cclib.Cclsys.Poll
import Cclib.Cclhttp.Connection
import Cclib.Lib.Vectors
import Cclib.Cclxml.Pointers
import Cclib.Cclwebs.Context
import Cclib.Lib.Slots
import Cclib.Cclhttp.Requests
import Cclib.Cclhttp.Upload
import Cclib.Lib.Ledger
import Cclib.Cclcurl.Transfer
import Cclib.Cclcurl.Session
import Cclib.Cclhttp.Resources
import Cclib.Cclwebs.Polling
import Cclib.Cclhttp.Polling
import Cclib.Cclsys.Transfer
import Cclib.Lib.OrderedMap
import Cclib.Cclvar.Lookup
import Cclib.Cclvar.Interned
import Cclib.Cclstr.Join
import Cclib.Cclvar.Show
import Cclib.Ccljson.Prefix
import Cclib.Cclcurl.Document
import Cclib.Cclhttp.Values
import Cclib.Cclsys.Datagrams
import Cclib.Cclxml.Builder
import Cclib.Cclsys.Reading
import Cclib.Cclhttp.ContentLength
