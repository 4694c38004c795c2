import IcsdPanel.Effects
import IcsdPanel.Runs
import IcsdPanel.Trees
import IcsdPanel.Paths
import IcsdPanel.Disk
import IcsdPanel.Walks
import IcsdPanel.Calls
import IcsdPanel.Machine
import IcsdPanel.Policy
import IcsdPanel.Growth
import IcsdPanel.Ways
import IcsdPanel.Calm
import IcsdPanel.Files
import IcsdPanel.Archives
import IcsdPanel.Requests
import IcsdPanel.Deeds
import IcsdPanel.JobDeeds
import IcsdPanel.Confinement
import IcsdPanel.Straying
import IcsdPanel.Destinations
import IcsdPanel.Denied
import IcsdPanel.Planted
import IcsdPanel.Contents
import IcsdPanel.Uploads
import IcsdPanel.Senders
import IcsdPanel.Crossings
import IcsdPanel.Dicts
import IcsdPanel.Tables
import IcsdPanel.Lines
import IcsdPanel.Tasks
import IcsdPanel.Alerts
import IcsdPanel.Live
import IcsdPanel.Evaluators
import IcsdPanel.Lives
import IcsdPanel.Operations
import IcsdPanel.Restarts
import IcsdPanel.Onsets
import IcsdPanel.Slices
import IcsdPanel.Buffers
import IcsdPanel.Outages
import IcsdPanel.Jsons
import IcsdPanel.Handlers
import IcsdPanel.Replies
import IcsdPanel.Checks
import IcsdPanel.Plans
import IcsdPanel.Sockets
import IcsdPanel.Revocations
import IcsdPanel.Handovers
import IcsdPanel.Completions
import IcsdPanel.Deletions
import IcsdPanel.Means
import IcsdPanel.Minutes
import IcsdPanel.Rollups
import IcsdPanel.Logs
import IcsdPanel.Texts
import IcsdPanel.Security
import IcsdPanel.Enrolments
import IcsdPanel.Accounts
import IcsdPanel.SecondFactors
import IcsdPanel.Elevations
import IcsdPanel.Limits
import IcsdPanel.Attempts
import IcsdPanel.Standing
import IcsdPanel.Values
import IcsdPanel.Answers
import IcsdPanel.Lengths
import IcsdPanel.Downloads
import IcsdPanel.Edits
import IcsdPanel.Prunes
import IcsdPanel.Stamps
import IcsdPanel.Packing
import IcsdPanel.Escapes
import IcsdPanel.Aliases
import IcsdPanel.Stops
import IcsdPanel.Unpacking
import IcsdPanel.Tails
import IcsdPanel.Lossy
import IcsdPanel.Listings
import IcsdPanel.Codes
import IcsdPanel.Schedules
import IcsdPanel.Containers
import IcsdPanel.Certs
import IcsdPanel.Charts
import IcsdPanel.Sinks
import IcsdPanel.Dumps
import IcsdPanel.Restores
import IcsdPanel.Calendars
import IcsdPanel.Frames
import IcsdPanel.Sizes
import IcsdPanel.Units
import IcsdPanel.Channels
import IcsdPanel.Tickers
import IcsdPanel.Nginx
import IcsdPanel.Patterns
import IcsdPanel.Switches
import IcsdPanel.Objects
import IcsdPanel.Samples
import IcsdPanel.Loads
import IcsdPanel.Hosts
import IcsdPanel.RoundTrips
import IcsdPanel.Registry
import IcsdPanel.Polls
import IcsdPanel.Cookies
import IcsdPanel.BackupRuns
import IcsdPanel.Overview
import IcsdPanel.CertAlerts
import IcsdPanel.Slots
import IcsdPanel.Retries
import IcsdPanel.Orders
import IcsdPanel.Mounts
import IcsdPanel.Guesses
import IcsdPanel.Scripts
import IcsdPanel.Migrations
import IcsdPanel.Replacing
import IcsdPanel.Sends
