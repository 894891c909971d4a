import MessageSchema.Main
import MessageSchema.Message.Lookup
import MessageSchema.Proofs.Generated.Members
import MessageSchema.Proofs.Generated.Scope
import MessageSchema.Proofs.Generated.Sizes
import MessageSchema.Proofs.Memory.Downcast
import MessageSchema.Proofs.Source.Unambiguous
import MessageSchema.Proofs.Table.Calls
import MessageSchema.Proofs.Command.FileTree
import MessageSchema.Proofs.Command.Writing
import MessageSchema.Proofs.Protocol.Order
import MessageSchema.Proofs.Generated.Blocks
import MessageSchema.Proofs.Protocol.Beginnings
import MessageSchema.Proofs.Guarded.Basic
import MessageSchema.Proofs.Guarded.Discriminants
import MessageSchema.Proofs.Guarded.Literals
import MessageSchema.Proofs.Guarded.Rows
import MessageSchema.Proofs.Source.Lockstep
import MessageSchema.Proofs.Source.Trees
import MessageSchema.Proofs.Guarded.Compile
import MessageSchema.Proofs.Settings.Entries
import MessageSchema.Proofs.Memory.Numbers
import MessageSchema.Proofs.Memory.Floats
import MessageSchema.Proofs.Memory.SizeMeaning
import MessageSchema.Proofs.Discriminant.Counting
import MessageSchema.Proofs.Generated.Names
import MessageSchema.Proofs.Generated.Constructors
import MessageSchema.Proofs.Command.Overwriting
import MessageSchema.Proofs.Field.Declaration
import MessageSchema.Proofs.Table.Resolved
import MessageSchema.Proofs.Table.Spellings
import MessageSchema.Proofs.Table.Keywords
import MessageSchema.Proofs.Generated.Identifiers
import MessageSchema.Proofs.Memory.Qualifiers
import MessageSchema.Proofs.Generated.Includes
import MessageSchema.Proofs.Table.Reordering
import MessageSchema.Proofs.Table.Lookups
import MessageSchema.Proofs.Protocol.Shared
import MessageSchema.Proofs.Source.Integers
